import PlcLang.Proofs.Grammar.Read
import PlcLang.Proofs.Grammar.Unique

/-!
# Why parsers refuse

A parser goes forward in the glyphs. It meets a numeral that is too long only where it reads an
integer, and then nothing else is tried.

* `StopsAt`: a parser goes forward and meets such a numeral only at glyphs of a kind.
* `StopsAt.bind`, `StopsAt.commit`, …: how parsers are built.
* `NeverOverlong`: the parsers that meet none, which are those of all tokens but the integers.
* `integer_eq_overlong`: the numerals that are too long.
-/

namespace PlcLang.Grammar

/-- The parser leaves an end of the glyphs, and if it meets a numeral that is too long then at an end
of the glyphs with the property `H`. -/
structure StopsAt {α : Type} (H : List Glyph → Prop) (p : Parser α) : Prop where
  suffix {gs a rest} : p gs = .ok (a, rest) → rest <:+ gs
  overlong {gs} : p gs = .error .overlong → ∃ gs', gs' <:+ gs ∧ H gs'

/-- The parser meets no numeral that is too long. -/
abbrev NeverOverlong {α : Type} (p : Parser α) : Prop := StopsAt (fun _ => False) p

section Errors

variable {α γ : Type} {gs : List Glyph} {e : Refusal} {p : Parser γ} {f : γ → Parser α}

theorem bind_eq_error : (p >>= f) gs = .error e ↔
    p gs = .error e ∨ ∃ c gs', p gs = .ok (c, gs') ∧ f c gs' = .error e := by
  cases h : p gs with
  | error => simp [bind_of_error h]
  | ok r =>
    obtain ⟨c, gs'⟩ := r
    rw [bind_of_ok h]
    exact ⟨fun k => .inr ⟨c, gs', rfl, k⟩, fun k => k.elim nofun fun ⟨_, _, hr, k⟩ => by cases hr; exact k⟩

theorem commit_eq_overlong {otherwise : Parser α} : commit p f otherwise gs = .error .overlong ↔
    p gs = .error .overlong ∨ (∃ c gs', p gs = .ok (c, gs') ∧ f c gs' = .error .overlong) ∨
      p gs = .error .mismatch ∧ otherwise gs = .error .overlong := by
  cases h : p gs with
  | error e =>
    cases e with
    | mismatch => simp [commit_of_mismatch h]
    | overlong => simp [commit_of_overlong h]
  | ok r =>
    obtain ⟨c, gs'⟩ := r
    rw [commit_of_ok h]
    simp

/-- A parser that succeeds nowhere and meets no numeral that is too long finds something else. -/
theorem eq_mismatch_of_refutes (hp : NeverOverlong p) (h : ∀ {a rest}, p gs = .ok (a, rest) → False) :
    p gs = .error .mismatch := by
  cases hgs : p gs with
  | error e =>
    cases e with
    | mismatch => rfl
    | overlong =>
      obtain ⟨_, -, hfalse⟩ := hp.overlong hgs
      exact hfalse.elim
  | ok r => exact (h hgs).elim

end Errors

namespace StopsAt

variable {H : List Glyph → Prop} {α γ : Type} {p : Parser γ} {f : γ → Parser α}
  {otherwise : Parser α}

/-! ## Combinators -/

theorem pure {a : α} : StopsAt H (pure a : Parser α) where
  suffix h := (pure_eq_ok.mp h).2 ▸ List.suffix_rfl
  overlong := nofun

theorem refuse : StopsAt H (refuse : Parser α) := ⟨nofun, nofun⟩

theorem bind (hp : StopsAt H p) (hf : ∀ c, StopsAt H (f c)) : StopsAt H (p >>= f) where
  suffix h := by
    obtain ⟨c, gs', hc, ha⟩ := bind_eq_ok.mp h
    exact ((hf c).suffix ha).trans (hp.suffix hc)
  overlong h := by
    rcases bind_eq_error.mp h with h | ⟨c, gs', hc, h⟩
    · exact hp.overlong h
    · obtain ⟨gs'', hsuffix, hH⟩ := (hf c).overlong h
      exact ⟨gs'', hsuffix.trans (hp.suffix hc), hH⟩

theorem map {g : γ → α} (hp : StopsAt H p) : StopsAt H (g <$> p) := hp.bind fun _ => pure

theorem commit (hp : StopsAt H p) (hf : ∀ c, StopsAt H (f c)) (ho : StopsAt H otherwise) :
    StopsAt H (commit p f otherwise) where
  suffix h := by
    rcases commit_eq_ok.mp h with ⟨c, gs', hc, ha⟩ | ⟨-, ha⟩
    · exact ((hf c).suffix ha).trans (hp.suffix hc)
    · exact ho.suffix ha
  overlong h := by
    rcases commit_eq_overlong.mp h with h | ⟨c, gs', hc, h⟩ | ⟨-, h⟩
    · exact hp.overlong h
    · obtain ⟨gs'', hsuffix, hH⟩ := (hf c).overlong h
      exact ⟨gs'', hsuffix.trans (hp.suffix hc), hH⟩
    · exact ho.overlong h

theorem token (hp : StopsAt H p) : StopsAt H (token p) := by
  have hskip (gs : List Glyph) : skipBlanks gs <:+ gs := List.dropWhile_suffix _
  refine ⟨fun h => (hp.suffix h).trans (hskip _), fun h => ?_⟩
  obtain ⟨gs', hsuffix, hH⟩ := hp.overlong h
  exact ⟨gs', hsuffix.trans (hskip _), hH⟩

theorem ite {c : Prop} [Decidable c] {q : Parser γ} (hp : StopsAt H p) (hq : StopsAt H q) :
    StopsAt H (if c then p else q) := by
  split
  · exact hp
  · exact hq

theorem here : StopsAt H here where
  suffix h := (here_eq_ok.mp h).2 ▸ List.suffix_rfl
  overlong := nofun

theorem finish : StopsAt H finish where
  suffix h := (finish_eq_ok.mp h).2 ▸ List.nil_suffix
  overlong h := by
    unfold Grammar.finish at h
    split at h <;> cases h

theorem many (hp : StopsAt H p) (bound : Nat) : StopsAt H (many p bound) := by
  induction bound with
  | zero => exact pure
  | succ bound ih => exact hp.commit (fun _ => ih.bind fun _ => pure) pure

/-! ## Characters -/

section Characters

variable {test : Char → Bool}

theorem literally {cs : List Char} : StopsAt H (literally cs) where
  suffix h := (literally_eq_ok.mp h).suffix
  overlong {gs} h := by
    induction cs generalizing gs with
    | nil => cases h
    | cons c cs ih =>
      unfold Grammar.literally at h
      split at h
      next g gs =>
        split at h
        · obtain ⟨gs', hsuffix, hH⟩ := ih h
          exact ⟨gs', hsuffix.trans (List.suffix_cons g gs), hH⟩
        · cases h
      · cases h

theorem one : StopsAt H (one test) where
  suffix h := (one_eq_ok.mp h).2.suffix
  overlong h := by
    unfold Grammar.one at h
    split at h
    · split at h <;> cases h
    · cases h

theorem run : StopsAt H (run test) where
  suffix h := (run_eq_ok.mp h).2.1.suffix
  overlong := nofun

theorem notBefore : StopsAt H (notBefore test) where
  suffix h := (notBefore_eq_ok.mp h).1 ▸ List.suffix_rfl
  overlong h := by
    unfold Grammar.notBefore at h
    split at h
    · split at h <;> cases h
    · cases h

end Characters

/-! ## Tokens -/

theorem word {text : String} : StopsAt H (word text) := token (literally.bind fun _ => notBefore)

theorem byWord {choices : List (String × Parser α)} (h : ∀ c ∈ choices, StopsAt H c.2)
    (ho : StopsAt H otherwise) : StopsAt H (byWord choices otherwise) := by
  induction choices with
  | nil => exact ho
  | cons c choices ih =>
    obtain ⟨hc, hchoices⟩ := List.forall_mem_cons.mp h
    exact word.commit (fun _ => hc) (ih hchoices)

theorem mark {text : String} : StopsAt H (mark text) := token literally

theorem name : StopsAt H name := token (one.bind fun _ => run.bind fun _ => ite refuse pure)

theorem sign : StopsAt H sign := one.commit (fun _ => pure) pure

theorem natural : StopsAt H natural := one.bind fun _ => ite pure (run.bind fun _ => pure)

theorem decimal : StopsAt H decimal :=
  token (sign.bind fun _ => natural.bind fun _ => one.bind fun _ => one.bind fun _ =>
    run.bind fun _ => pure)

theorem inQuotes {quote : Char} : StopsAt H (inQuotes quote) := by
  have hbody : StopsAt H (fun gs => .ok (body quote gs) : Parser (List Char)) :=
    ⟨fun h => (body_eq (Except.ok.inj h)).1.suffix, nofun⟩
  refine token (one.bind fun _ => hbody.bind fun cs => one.bind fun _ => ?_)
  cases unescape cs with
  | ok => exact pure
  | error => exact refuse

theorem character : StopsAt H character := inQuotes.bind fun _ => ite pure refuse

theorem string : StopsAt H string := inQuotes.bind fun _ => pure

/-! ## Lists with commas -/

theorem afterCommas (hp : StopsAt H p) (bound : Nat) : StopsAt H (afterCommas p bound) := by
  induction bound with
  | zero => exact pure
  | succ bound ih => exact mark.commit (fun _ => hp.bind fun _ => ih.bind fun _ => pure) pure

theorem separated (hp : StopsAt H p) (bound : Nat) : StopsAt H (separated p bound) :=
  hp.bind fun _ => (hp.afterCommas bound).bind fun _ => pure

theorem perhapsSeparated (hp : StopsAt H p) (bound : Nat) : StopsAt H (perhapsSeparated p bound) :=
  hp.commit (fun _ => (hp.afterCommas bound).bind fun _ => pure) (hp.afterCommas bound)

end StopsAt

/-! ## Integers -/

/-- The glyphs begin with a numeral that is too long. -/
def BeginsOverlong (gs : List Glyph) : Prop :=
  ∃ ds rest, IsNatural ds ∧ Numeral.limit < ds.length ∧ Splits gs ds rest

/-- The numeral of an integer is as long as the digits that it was read from. -/
theorem fits_iff (negative : Bool) {ds : List Char} (hds : IsNatural ds) :
    Numeral.Fits (if negative then -(Decimal.ofDigits ds : Int) else Decimal.ofDigits ds) ↔
      ds.length ≤ Numeral.limit := by
  have hsize : (if negative then -(Decimal.ofDigits ds : Int) else Decimal.ofDigits ds).natAbs =
      Decimal.ofDigits ds := by
    cases negative <;> simp
  rw [Numeral.Fits, hsize, hds.digits_eq]

/-- A numeral that is too long does not denote zero. -/
theorem IsNatural.ofDigits_ne_zero {ds : List Char} (h : IsNatural ds) (hlong : Numeral.limit < ds.length) :
    Decimal.ofDigits ds ≠ 0 := by
  intro hzero
  have hdigits := h.digits_eq
  rw [hzero] at hdigits
  rw [← hdigits] at hlong
  exact absurd hlong (by decide)

theorem integerOf_eq_overlong {negative : Bool} {ds : List Char} {gs : List Glyph} (hds : IsNatural ds) :
    integerOf negative ds gs = .error .overlong ↔ Numeral.limit < ds.length := by
  unfold integerOf
  split
  next hzero =>
    refine ⟨nofun, fun hlong => ?_⟩
    simp only [Bool.and_eq_true, beq_iff_eq] at hzero
    exact absurd hzero.2 (hds.ofDigits_ne_zero hlong)
  next =>
    split
    next hlong => exact ⟨fun _ => hlong, fun _ => rfl⟩
    next hlimit => exact ⟨nofun, fun hlong => absurd hlong hlimit⟩

/-- The numerals that are too long. -/
theorem integer_eq_overlong {gs : List Glyph} : integer gs = .error .overlong ↔
    ∃ negative ds rest, IsNatural ds ∧ Numeral.limit < ds.length ∧
      Splits (skipBlanks gs) (Decimal.signText negative ++ ds) rest ∧
        (ds = ['0'] ∨ Stops isDigit rest) := by
  have hnever {α : Type} {p : Parser α} (hp : NeverOverlong p) {gs : List Glyph} :
      p gs ≠ .error .overlong := fun h => (hp.overlong h).elim fun _ hfalse => hfalse.2
  simp only [integer, token, bind_eq_error, hnever .sign, hnever .natural, false_or, sign_eq_ok,
    natural_eq_ok]
  constructor
  · rintro ⟨negative, _, ⟨hsign, -⟩, ds, rest, ⟨hds, h, hstop⟩, hlong⟩
    exact ⟨negative, ds, rest, hds, (integerOf_eq_overlong hds).mp hlong, hsign.append h, hstop⟩
  · rintro ⟨negative, ds, rest, hds, hlong, h, hstop⟩
    obtain ⟨gs', hsign, hnatural⟩ := Splits.append_iff.mp h
    exact ⟨negative, gs', ⟨hsign, fun _ => hds.stops hnatural⟩, ds, rest, ⟨hds, hnatural, hstop⟩,
      (integerOf_eq_overlong hds).mpr hlong⟩

/-- Integers are where parsers meet numerals that are too long. -/
theorem stopsAt_integer : StopsAt BeginsOverlong integer where
  suffix h := by
    obtain ⟨_, _, _, _, _, _, hsplits, -⟩ := integer_eq_ok.mp h
    exact hsplits.suffix.trans (List.dropWhile_suffix _)
  overlong h := by
    obtain ⟨_, ds, rest, hds, hlong, hsplits, -⟩ := integer_eq_overlong.mp h
    obtain ⟨gs', hsign, hnatural⟩ := Splits.append_iff.mp hsplits
    exact ⟨gs', hsign.suffix.trans (List.dropWhile_suffix _), ds, rest, hds, hlong, hnatural⟩

end PlcLang.Grammar
