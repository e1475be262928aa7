import PlcLang.Proofs.Grammar.Lexeme

/-!
# How tokens are read

When each parser of a token succeeds, in terms of the characters that it takes.

* `Grammar.bind_eq_ok`, `Grammar.commit_eq_ok`: how parsers are built.
* `Grammar.name_eq_ok`, `Grammar.decimal_eq_ok`, …: the tokens.
* `Grammar.reads_word`, `Grammar.reads_name`, …: what was read is a lexeme.
-/

namespace PlcLang.Grammar

variable {α γ : Type} {gs rest : List Glyph} {a : α}

/-! ## Combinators -/

@[simp] theorem pure_eq_ok {b : α} :
    (pure a : Parser α) gs = .ok (b, rest) ↔ a = b ∧ gs = rest := by
  change Except.ok (a, gs) = .ok (b, rest) ↔ _
  rw [Except.ok.injEq, Prod.mk.injEq]

theorem bind_of_ok {p : Parser γ} {f : γ → Parser α} {c : γ} (h : p gs = .ok (c, rest)) :
    (p >>= f) gs = f c rest := by
  change (p gs).bind (fun r => f r.1 r.2) = _
  rw [h]
  rfl

theorem bind_of_error {p : Parser γ} {f : γ → Parser α} {e : Refusal} (h : p gs = .error e) :
    (p >>= f) gs = .error e := by
  change (p gs).bind (fun r => f r.1 r.2) = _
  rw [h]
  rfl

@[simp] theorem bind_eq_ok {p : Parser γ} {f : γ → Parser α} :
    (p >>= f) gs = .ok (a, rest) ↔ ∃ c gs', p gs = .ok (c, gs') ∧ f c gs' = .ok (a, rest) := by
  cases h : p gs with
  | error => simp [bind_of_error h]
  | ok r =>
    obtain ⟨c, gs'⟩ := r
    rw [bind_of_ok h]
    simp only [Except.ok.injEq, Prod.mk.injEq]
    exact ⟨fun k => ⟨c, gs', ⟨rfl, rfl⟩, k⟩, fun ⟨_, _, ⟨hc, hgs⟩, k⟩ => hc ▸ hgs ▸ k⟩

@[simp] theorem map_eq_ok {p : Parser γ} {f : γ → α} :
    (f <$> p) gs = .ok (a, rest) ↔ ∃ c, p gs = .ok (c, rest) ∧ f c = a := by
  change (p >>= fun c => pure (f c)) gs = _ ↔ _
  simp only [bind_eq_ok, pure_eq_ok]
  constructor
  · rintro ⟨c, _, hp, rfl, rfl⟩
    exact ⟨c, hp, rfl⟩
  · rintro ⟨c, hp, rfl⟩
    exact ⟨c, rest, hp, rfl, rfl⟩

@[simp] theorem refuse_eq_ok : (refuse : Parser α) gs ≠ .ok (a, rest) := nofun

theorem commit_of_ok {head : Parser γ} {tail : γ → Parser α} {otherwise : Parser α} {c : γ}
    (h : head gs = .ok (c, rest)) : commit head tail otherwise gs = tail c rest := by
  unfold commit
  rw [h]

theorem commit_of_mismatch {head : Parser γ} {tail : γ → Parser α} {otherwise : Parser α}
    (h : head gs = .error .mismatch) : commit head tail otherwise gs = otherwise gs := by
  unfold commit
  rw [h]

theorem commit_of_overlong {head : Parser γ} {tail : γ → Parser α} {otherwise : Parser α}
    (h : head gs = .error .overlong) : commit head tail otherwise gs = .error .overlong := by
  unfold commit
  rw [h]

theorem commit_eq_ok {head : Parser γ} {tail : γ → Parser α} {otherwise : Parser α} :
    commit head tail otherwise gs = .ok (a, rest) ↔
      (∃ c gs', head gs = .ok (c, gs') ∧ tail c gs' = .ok (a, rest)) ∨
        head gs = .error .mismatch ∧ otherwise gs = .ok (a, rest) := by
  cases h : head gs with
  | error e =>
    cases e with
    | mismatch => simp [commit_of_mismatch h]
    | overlong => simp [commit_of_overlong h]
  | ok r =>
    obtain ⟨c, gs'⟩ := r
    rw [commit_of_ok h]
    simp only [Except.ok.injEq, Prod.mk.injEq, reduceCtorEq, false_and, or_false]
    exact ⟨fun k => ⟨c, gs', ⟨rfl, rfl⟩, k⟩, fun ⟨_, _, ⟨hc, hgs⟩, k⟩ => hc ▸ hgs ▸ k⟩

/-- A choice whose first branch cannot refuse. -/
theorem commit_pure_eq_mismatch {head : Parser γ} {f : γ → α} {otherwise : Parser α} :
    commit head (fun c => pure (f c)) otherwise gs = .error .mismatch ↔
      head gs = .error .mismatch ∧ otherwise gs = .error .mismatch := by
  cases h : head gs with
  | error e =>
    cases e with
    | mismatch => simp [commit_of_mismatch h]
    | overlong => simp [commit_of_overlong h]
  | ok r =>
    obtain ⟨c, gs'⟩ := r
    rw [commit_of_ok h]
    exact ⟨nofun, fun hnone => nomatch hnone.1⟩

theorem byWord_of_mismatch {choices : List (String × Parser α)} {otherwise : Parser α}
    (h : ∀ w ∈ choices.map Prod.fst, word w gs = .error .mismatch) :
    byWord choices otherwise gs = otherwise gs := by
  induction choices with
  | nil => rfl
  | cons c choices ih =>
    obtain ⟨hc, hchoices⟩ := List.forall_mem_cons.mp h
    exact (commit_of_mismatch hc).trans (ih hchoices)

@[simp] theorem here_eq_ok {p : Place} : here gs = .ok (p, rest) ↔ nextPlace gs = p ∧ gs = rest := by
  change Except.ok (nextPlace gs, gs) = _ ↔ _
  rw [Except.ok.injEq, Prod.mk.injEq]

theorem here_eq (gs : List Glyph) : here gs = .ok (nextPlace gs, gs) := rfl

theorem finish_eq_ok {u : Unit} :
    finish gs = .ok (u, rest) ↔ skipBlanks gs = [] ∧ rest = [] := by
  unfold finish
  cases h : skipBlanks gs <;> simp [eq_comm]

/-! ## Characters -/

theorem literally_eq_ok {cs : List Char} {u : Unit} :
    literally cs gs = .ok (u, rest) ↔ Splits gs cs rest := by
  induction cs generalizing gs with
  | nil => simp [literally]
  | cons c cs ih =>
    rw [Splits.cons_iff]
    cases gs with
    | nil => simp [literally]
    | cons g gs =>
      by_cases h : g.char = c
      · simp only [literally, h, if_true, ih]
        exact ⟨fun k => ⟨g, gs, rfl, h, k⟩, fun ⟨_, _, he, _, k⟩ => (List.cons.inj he).2 ▸ k⟩
      · simp [literally, h]

theorem one_eq_ok {test : Char → Bool} {c : Char} :
    one test gs = .ok (c, rest) ↔ test c = true ∧ Splits gs [c] rest := by
  rw [Splits.cons_iff]
  cases gs with
  | nil => simp [one]
  | cons g gs =>
    by_cases h : test g.char = true
    · simp only [one, h, if_true, Except.ok.injEq, Prod.mk.injEq, Splits.nil_iff]
      constructor
      · rintro ⟨rfl, rfl⟩
        exact ⟨h, g, gs, rfl, rfl, rfl⟩
      · rintro ⟨-, _, _, ⟨⟩, rfl, rfl⟩
        exact ⟨rfl, rfl⟩
    · simp only [one, h, if_false, reduceCtorEq, false_iff, Splits.nil_iff, Bool.false_eq_true]
      rintro ⟨hc, _, _, ⟨⟩, rfl, rfl⟩
      exact h hc

/-- The glyphs do not begin with a character that passes the test. -/
def Stops (test : Char → Bool) (gs : List Glyph) : Prop := ∀ g ∈ gs.head?, test g.char = false

theorem run_eq_ok {test : Char → Bool} {cs : List Char} :
    run test gs = .ok (cs, rest) ↔
      (∀ c ∈ cs, test c = true) ∧ Splits gs cs rest ∧ Stops test rest := by
  simp only [run, Except.ok.injEq, Prod.mk.injEq]
  constructor
  · rintro ⟨rfl, rfl⟩
    refine ⟨fun c hc => ?_, ⟨_, List.takeWhile_append_dropWhile.symm, rfl⟩, fun g hg => ?_⟩
    · obtain ⟨g, hg, rfl⟩ := List.mem_map.mp hc
      exact List.all_eq_true.mp List.all_takeWhile g hg
    · have hdrop := List.head?_dropWhile_not (fun g : Glyph => test g.char) gs
      rw [hg] at hdrop
      simpa using hdrop
  · rintro ⟨hall, ⟨w, rfl, rfl⟩, hstop⟩
    have hw : ∀ g ∈ w, test g.char = true := fun g hg => hall _ (List.mem_map_of_mem hg)
    have hrest : rest.takeWhile (fun g => test g.char) = [] ∧
        rest.dropWhile (fun g => test g.char) = rest := by
      cases rest with
      | nil => exact ⟨rfl, rfl⟩
      | cons g rest =>
        have hg := hstop g rfl
        exact ⟨List.takeWhile_cons_of_neg (by simp [hg]), List.dropWhile_cons_of_neg (by simp [hg])⟩
    rw [List.takeWhile_append_of_pos hw, List.dropWhile_append_of_pos hw, hrest.1, hrest.2,
      List.append_nil]
    exact ⟨rfl, rfl⟩

/-! ## Words, marks and names -/

theorem mark_eq_ok {text : String} {u : Unit} :
    mark text gs = .ok (u, rest) ↔ Splits (skipBlanks gs) text.toList rest := literally_eq_ok

theorem notBefore_eq_ok {test : Char → Bool} {u : Unit} :
    notBefore test gs = .ok (u, rest) ↔ gs = rest ∧ Stops test rest := by
  cases gs with
  | nil =>
    simp only [notBefore, Except.ok.injEq, Prod.mk.injEq, true_and]
    exact ⟨fun h => ⟨h, h ▸ nofun⟩, And.left⟩
  | cons g gs =>
    by_cases hg : test g.char = true
    · simp only [notBefore, hg, if_true, reduceCtorEq, false_iff]
      rintro ⟨rfl, hstop⟩
      cases hg.symm.trans (hstop g rfl)
    · simp only [notBefore, hg, if_false, Except.ok.injEq, Prod.mk.injEq, true_and, Bool.false_eq_true]
      refine ⟨?_, And.left⟩
      rintro rfl
      exact ⟨rfl, fun _ hmem => by cases hmem; exact Bool.eq_false_iff.mpr hg⟩

theorem word_eq_ok {text : String} {u : Unit} :
    word text gs = .ok (u, rest) ↔
      Splits (skipBlanks gs) text.toList rest ∧ Stops Char.isAlphanum rest := by
  simp only [word, token, bind_eq_ok, literally_eq_ok, notBefore_eq_ok]
  constructor
  · rintro ⟨⟨⟩, _, h, rfl, hstop⟩
    exact ⟨h, hstop⟩
  · rintro ⟨h, hstop⟩
    exact ⟨(), rest, h, rfl, hstop⟩

theorem name_eq_ok {s : String} :
    name gs = .ok (s, rest) ↔
      IsIdentifier s ∧ Splits (skipBlanks gs) s.toList rest ∧ Stops continuesName rest := by
  change (do
    let first ← one beginsName
    let text := String.ofList (first :: (← run continuesName))
    if text ∈ keywords then refuse else pure text : Parser String) (skipBlanks gs) = _ ↔ _
  simp only [bind_eq_ok, one_eq_ok, run_eq_ok]
  constructor
  · rintro ⟨c, _, ⟨hc, hfirst⟩, cs, gs', ⟨hcs, hrun, hstop⟩, h⟩
    split at h
    · cases h
    next hk =>
      obtain ⟨rfl, rfl⟩ := pure_eq_ok.mp h
      refine ⟨⟨⟨c, cs, by simp, hc, hcs⟩, hk⟩, ?_, hstop⟩
      rw [String.toList_ofList]
      exact hfirst.append hrun
  · rintro ⟨⟨⟨c, cs, hs, hc, hcs⟩, hk⟩, h, hstop⟩
    rw [hs] at h
    obtain ⟨gs', hfirst, hrun⟩ := h.exists_of_cons
    have htext : String.ofList (c :: cs) = s := by rw [← hs, String.ofList_toList]
    refine ⟨c, gs', ⟨hc, hfirst⟩, cs, rest, ⟨hcs, hrun, hstop⟩, ?_⟩
    rw [htext, if_neg hk]
    rfl

/-! ## Numerals -/

theorem sign_eq_ok {negative : Bool} :
    sign gs = .ok (negative, rest) ↔
      Splits gs (Decimal.signText negative) rest ∧ (negative = false → Stops (· == '-') rest) := by
  have hone : one (· == '-') gs = .error .mismatch ↔ Stops (· == '-') gs := by
    cases gs with
    | nil => simp [one, Stops]
    | cons g gs => simp [one, Stops]
  simp only [sign, commit_eq_ok, one_eq_ok, pure_eq_ok, hone]
  constructor
  · rintro (⟨_, _, ⟨hc, h⟩, rfl, rfl⟩ | ⟨hstop, rfl, rfl⟩)
    · rw [eq_of_beq hc] at h
      exact ⟨h, nofun⟩
    · exact ⟨Splits.nil_iff.mpr rfl, fun _ => hstop⟩
  · rintro ⟨h, hstop⟩
    cases negative with
    | true => exact .inl ⟨'-', rest, ⟨rfl, h⟩, rfl, rfl⟩
    | false =>
      obtain rfl := Splits.nil_iff.mp h
      exact .inr ⟨hstop rfl, rfl, rfl⟩

theorem natural_eq_ok {ds : List Char} :
    natural gs = .ok (ds, rest) ↔
      IsNatural ds ∧ Splits gs ds rest ∧ (ds = ['0'] ∨ Stops isDigit rest) := by
  simp only [natural, bind_eq_ok, one_eq_ok]
  constructor
  · rintro ⟨c, gs', ⟨hc, hfirst⟩, h⟩
    split at h
    next hzero =>
      obtain ⟨rfl, rfl⟩ := pure_eq_ok.mp h
      exact ⟨.zero, hzero ▸ hfirst, .inl rfl⟩
    next hzero =>
      simp only [bind_eq_ok, run_eq_ok, pure_eq_ok] at h
      obtain ⟨cs, _, ⟨hcs, hrun, hstop⟩, rfl, rfl⟩ := h
      exact ⟨.positive hc hzero hcs, hfirst.append hrun, .inr hstop⟩
  · rintro ⟨hds, h, hstop⟩
    cases hds with
    | zero => exact ⟨'0', rest, ⟨rfl, h⟩, by simp⟩
    | @positive c cs hc hzero hcs =>
      obtain ⟨gs', hfirst, hrun⟩ := h.exists_of_cons
      refine ⟨c, gs', ⟨hc, hfirst⟩, ?_⟩
      rw [if_neg hzero]
      simp only [bind_eq_ok, run_eq_ok, pure_eq_ok]
      have hstop : Stops isDigit rest := hstop.resolve_left fun he => hzero (List.cons.inj he).1
      exact ⟨cs, rest, ⟨hcs, hrun, hstop⟩, rfl, rfl⟩

/-- A numeral begins with a digit, so it does not begin with a sign. -/
theorem IsNatural.stops {ds : List Char} (h : IsNatural ds) (k : Splits gs ds rest) :
    Stops (· == '-') gs := by
  have hhead : ∃ c cs, ds = c :: cs ∧ isDigit c = true := by
    cases h with
    | zero => exact ⟨'0', [], rfl, rfl⟩
    | positive hc _ _ => exact ⟨_, _, rfl, hc⟩
  obtain ⟨c, cs, rfl, hc⟩ := hhead
  obtain ⟨g, gs', rfl, rfl, -⟩ := Splits.cons_iff.mp k
  intro g' hg'
  cases hg'
  refine Bool.eq_false_iff.mpr fun he => ?_
  rw [eq_of_beq he] at hc
  cases hc

theorem integerOf_eq_ok {negative : Bool} {ds : List Char} {i : Int} :
    integerOf negative ds gs = .ok (i, rest) ↔
      (negative && Decimal.ofDigits ds == 0) = false ∧ ds.length ≤ Numeral.limit ∧
        i = (if negative then -(Decimal.ofDigits ds : Int) else Decimal.ofDigits ds) ∧
          gs = rest := by
  unfold integerOf
  split
  next hzero => simp [hzero]
  next hzero =>
    split
    next hlong =>
      refine ⟨nofun, fun h => absurd h.2.1 (Nat.not_le.mpr hlong)⟩
    next hlimit =>
      rw [pure_eq_ok]
      have hzero := Bool.eq_false_iff.mpr hzero
      exact ⟨fun ⟨hi, hgs⟩ => ⟨hzero, Nat.le_of_not_lt hlimit, hi.symm, hgs⟩,
        fun ⟨_, _, hi, hgs⟩ => ⟨hi.symm, hgs⟩⟩

theorem integer_eq_ok {i : Int} :
    integer gs = .ok (i, rest) ↔
      ∃ negative ds, IsNatural ds ∧ (negative && Decimal.ofDigits ds == 0) = false ∧
        ds.length ≤ Numeral.limit ∧
        i = (if negative then -(Decimal.ofDigits ds : Int) else Decimal.ofDigits ds) ∧
        Splits (skipBlanks gs) (Decimal.signText negative ++ ds) rest ∧
        (ds = ['0'] ∨ Stops isDigit rest) := by
  simp only [integer, token, bind_eq_ok, sign_eq_ok, natural_eq_ok, integerOf_eq_ok]
  constructor
  · rintro ⟨negative, _, ⟨hsign, -⟩, ds, _, ⟨hds, h, hstop⟩, hzero, hlimit, rfl, rfl⟩
    exact ⟨negative, ds, hds, hzero, hlimit, rfl, hsign.append h, hstop⟩
  · rintro ⟨negative, ds, hds, hzero, hlimit, rfl, h, hstop⟩
    obtain ⟨gs', hsign, hnatural⟩ := Splits.append_iff.mp h
    exact ⟨negative, gs', ⟨hsign, fun _ => hds.stops hnatural⟩, ds, rest, ⟨hds, hnatural, hstop⟩, hzero,
      hlimit, rfl, rfl⟩

theorem decimal_eq_ok {d : Decimal} :
    decimal gs = .ok (d, rest) ↔
      ∃ negative whole fraction, IsNatural whole ∧ fraction ≠ [] ∧
        (∀ c ∈ fraction, isDigit c = true) ∧ d = .ofParts negative whole fraction ∧
        Splits (skipBlanks gs) (Decimal.signText negative ++ whole ++ '.' :: fraction) rest ∧
        Stops isDigit rest := by
  change (do
    let negative ← sign
    let whole ← natural
    let _ ← one (· == '.')
    let first ← one isDigit
    return .ofParts negative whole (first :: (← run isDigit)) : Parser Decimal) (skipBlanks gs) = _ ↔ _
  simp only [bind_eq_ok, sign_eq_ok, natural_eq_ok, one_eq_ok, run_eq_ok, pure_eq_ok]
  constructor
  · rintro ⟨negative, _, ⟨hsign, -⟩, whole, _, ⟨hwhole, h, -⟩, _, _, ⟨hpoint, h'⟩, c, _, ⟨hc, h''⟩, cs, _,
      ⟨hcs, hrun, hstop⟩, rfl, rfl⟩
    rw [eq_of_beq hpoint] at h'
    refine ⟨negative, whole, c :: cs, hwhole, List.cons_ne_nil _ _,
      List.forall_mem_cons.mpr ⟨hc, hcs⟩, rfl, ?_, hstop⟩
    exact (hsign.append h).append (h'.append (h''.append hrun))
  · rintro ⟨negative, whole, fraction, hwhole, hne, hall, rfl, h, hstop⟩
    obtain ⟨c, cs, rfl⟩ := List.exists_cons_of_ne_nil hne
    obtain ⟨hc, hcs⟩ := List.forall_mem_cons.mp hall
    obtain ⟨_, h, hpoint⟩ := Splits.append_iff.mp h
    obtain ⟨_, hsign, hnatural⟩ := Splits.append_iff.mp h
    obtain ⟨_, hpoint, hfraction⟩ := hpoint.exists_of_cons
    obtain ⟨_, hfirst, hrun⟩ := hfraction.exists_of_cons
    refine ⟨negative, _, ⟨hsign, fun _ => hwhole.stops hnatural⟩, whole, _,
      ⟨hwhole, hnatural, .inr ?_⟩, '.', _, ⟨rfl, hpoint⟩, c, _, ⟨hc, hfirst⟩, cs, rest,
      ⟨hcs, hrun, hstop⟩, rfl, rfl⟩
    -- the point that follows is no digit
    obtain ⟨g, _, rfl, hg, -⟩ := Splits.cons_iff.mp hpoint
    intro g' hg'
    cases hg'
    rw [hg]
    rfl

/-! ## Characters and strings -/

theorem ne_backslash_of_isPlainIn {quote c : Char} (h : isPlainIn quote c = true) : c ≠ '\\' := by
  simp only [isPlainIn, Bool.and_eq_true, bne_iff_ne] at h
  exact h.2

theorem Written.unescape_eq {quote : Char} {cs w : List Char} (h : Written quote cs w) :
    unescape w = .ok cs := by
  induction h with
  | nil => rfl
  | plain hc _ ih =>
    rw [unescape.eq_def]
    simp only [ne_backslash_of_isPlainIn hc, if_false, ih]
    rfl
  | escape hd _ ih =>
    rw [unescape.eq_def]
    simp only [if_true, hd, ih]
    rfl

/-- The body that is read is well formed. -/
theorem body_eq {quote : Char} {w : List Char} (h : body quote gs = (w, rest)) :
    Splits gs w rest ∧ ∃ cs, Written quote cs w := by
  fun_induction body quote gs generalizing w rest with
  | case1 =>
    cases h
    exact ⟨Splits.nil_iff.mpr rfl, [], .nil⟩
  | case2 g gs hplain w' rest' hbody ih =>
    cases h
    obtain ⟨hsplits, cs, hcs⟩ := ih hbody
    exact ⟨Splits.cons_iff.mpr ⟨g, gs, rfl, rfl, hsplits⟩, g.char :: cs, .plain hplain hcs⟩
  | case3 =>
    cases h
    exact ⟨Splits.nil_iff.mpr rfl, [], .nil⟩
  | case4 g _ hback h' gs hsome w' rest' hbody ih =>
    cases h
    obtain ⟨hsplits, cs, hcs⟩ := ih hbody
    obtain ⟨c, hc⟩ := Option.isSome_iff_exists.mp hsome
    refine ⟨?_, c :: cs, .escape hc hcs⟩
    exact Splits.cons_iff.mpr ⟨g, _, rfl, hback, Splits.cons_iff.mpr ⟨h', gs, rfl, rfl, hsplits⟩⟩
  | case5 =>
    cases h
    exact ⟨Splits.nil_iff.mpr rfl, [], .nil⟩
  | case6 =>
    cases h
    exact ⟨Splits.nil_iff.mpr rfl, [], .nil⟩

/-- A body that is well formed is read up to the quote. -/
theorem Written.body_eq {quote : Char} {cs w : List Char} (hquote : quote ≠ '\\')
    (h : Written quote cs w) {g : Glyph} (hg : g.char = quote) (k : Splits gs w (g :: rest)) :
    body quote gs = (w, g :: rest) := by
  induction h generalizing gs with
  | nil =>
    obtain rfl := Splits.nil_iff.mp k
    unfold body
    simp [hg, isPlainIn, hquote]
  | plain hc _ ih =>
    obtain ⟨g', gs', rfl, rfl, k'⟩ := Splits.cons_iff.mp k
    unfold body
    simp [hc, ih k']
  | @escape c d cs w hd _ ih =>
    obtain ⟨g', gs', rfl, hback, k₁⟩ := Splits.cons_iff.mp k
    obtain ⟨h', gs'', rfl, rfl, k₂⟩ := Splits.cons_iff.mp k₁
    have hplain : isPlainIn quote '\\' = false := by simp [isPlainIn]
    unfold body
    simp [hback, hplain, hd, ih k₂]

theorem inQuotes_eq_ok (quote : Char) (hquote : quote ≠ '\\') {cs : List Char} :
    inQuotes quote gs = .ok (cs, rest) ↔
      ∃ w, Written quote cs w ∧ Splits (skipBlanks gs) (quote :: w ++ [quote]) rest := by
  unfold inQuotes token
  simp only [bind_eq_ok, one_eq_ok, Except.ok.injEq]
  constructor
  · rintro ⟨_, _, ⟨hopen, h⟩, w, gs', hbody, _, _, ⟨hclose, h'⟩, hcs⟩
    rw [eq_of_beq hopen] at h
    rw [eq_of_beq hclose] at h'
    obtain ⟨hsplits, cs', hw⟩ := body_eq hbody
    rw [hw.unescape_eq] at hcs
    obtain ⟨rfl, rfl⟩ := pure_eq_ok.mp hcs
    exact ⟨w, hw, (h.append hsplits).append h'⟩
  · rintro ⟨w, hw, h⟩
    obtain ⟨gs', h, hclose⟩ := Splits.append_iff.mp h
    obtain ⟨_, hopen, hbody⟩ := Splits.exists_of_cons h
    obtain ⟨g, _, rfl, hg, -⟩ := Splits.cons_iff.mp hclose
    refine ⟨quote, _, ⟨beq_self_eq_true _, hopen⟩, w, _, hw.body_eq hquote hg hbody, quote, rest,
      ⟨beq_self_eq_true _, hclose⟩, ?_⟩
    rw [hw.unescape_eq]
    rfl

theorem character_eq_ok {s : String} :
    character gs = .ok (s, rest) ↔ ∃ c w, s = String.singleton c ∧ Written '\x27' [c] w ∧
      Splits (skipBlanks gs) ('\x27' :: w ++ ['\x27']) rest := by
  simp only [character, bind_eq_ok, inQuotes_eq_ok '\x27' (by decide)]
  constructor
  · rintro ⟨cs, _, ⟨w, hw, h⟩, hs⟩
    split at hs
    next hlength =>
      obtain ⟨rfl, rfl⟩ := pure_eq_ok.mp hs
      obtain ⟨c, rfl⟩ := List.length_eq_one_iff.mp hlength
      exact ⟨c, w, rfl, hw, h⟩
    · cases hs
  · rintro ⟨c, w, rfl, hw, h⟩
    exact ⟨[c], rest, ⟨w, hw, h⟩, rfl⟩

theorem string_eq_ok {s : String} :
    string gs = .ok (s, rest) ↔ ∃ cs w, s = String.ofList cs ∧ Written '\x22' cs w ∧
      Splits (skipBlanks gs) ('\x22' :: w ++ ['\x22']) rest := by
  simp only [string, bind_eq_ok, inQuotes_eq_ok '\x22' (by decide), pure_eq_ok]
  constructor
  · rintro ⟨cs, _, ⟨w, hw, h⟩, rfl, rfl⟩
    exact ⟨cs, w, rfl, hw, h⟩
  · rintro ⟨cs, w, rfl, hw, h⟩
    exact ⟨cs, rest, ⟨w, hw, h⟩, rfl, rfl⟩

/-! ## Lexemes -/

theorem reads_single {t : Token} {cs : List Char} (ht : t.Spelling cs)
    (h : Splits (skipBlanks gs) cs rest) : Reads Anything gs [⟨t, nextPlace gs⟩] rest :=
  .cons ht h trivial .nil

theorem reads_word {text : String} (htext : text ∈ keywords) {u : Unit}
    (h : word text gs = .ok (u, rest)) : Reads Anything gs [⟨.word text, nextPlace gs⟩] rest :=
  reads_single (.word htext) (word_eq_ok.mp h).1

theorem reads_mark {text : String} (htext : text ∈ marks) {u : Unit}
    (h : mark text gs = .ok (u, rest)) : Reads Anything gs [⟨.mark text, nextPlace gs⟩] rest :=
  reads_single (.mark htext) (mark_eq_ok.mp h)

theorem reads_name {s : String} (h : name gs = .ok (s, rest)) :
    IsIdentifier s ∧ Reads Anything gs [⟨.name s, nextPlace gs⟩] rest := by
  obtain ⟨hs, hsplits, -⟩ := name_eq_ok.mp h
  exact ⟨hs, reads_single (.name hs) hsplits⟩

theorem reads_integer {i : Int} (h : integer gs = .ok (i, rest)) :
    Reads Anything gs [⟨.integer i, nextPlace gs⟩] rest := by
  obtain ⟨negative, ds, hds, hzero, -, rfl, hsplits, -⟩ := integer_eq_ok.mp h
  cases negative with
  | false => exact reads_single (.natural hds) hsplits
  | true => exact reads_single (.negative hds (by simpa using hzero)) hsplits

theorem isLiteral_ofParts {negative : Bool} {whole fraction : List Char} (h : fraction ≠ []) :
    (Value.decimal (.ofParts negative whole fraction)).IsLiteral := by
  have hlength : 0 < fraction.length := List.length_pos_iff.mpr h
  exact .decimal negative _ (by omega)

theorem reads_decimal {d : Decimal} (h : decimal gs = .ok (d, rest)) :
    (Value.decimal d).IsLiteral ∧ Reads Anything gs [⟨.decimal d, nextPlace gs⟩] rest := by
  obtain ⟨_, _, _, hwhole, hne, hall, rfl, hsplits, -⟩ := decimal_eq_ok.mp h
  exact ⟨isLiteral_ofParts hne, reads_single (.decimal hwhole hne hall) hsplits⟩

theorem reads_character {s : String} (h : character gs = .ok (s, rest)) :
    ∃ c, s = String.singleton c ∧ Reads Anything gs [⟨.character c, nextPlace gs⟩] rest := by
  obtain ⟨c, w, rfl, hw, hsplits⟩ := character_eq_ok.mp h
  exact ⟨c, rfl, reads_single (.character hw) hsplits⟩

theorem reads_string {s : String} (h : string gs = .ok (s, rest)) :
    Reads Anything gs [⟨.string s, nextPlace gs⟩] rest := by
  obtain ⟨cs, w, rfl, hw, hsplits⟩ := string_eq_ok.mp h
  exact reads_single (.string hw) hsplits

end PlcLang.Grammar
