import PlcLang.Proofs.Grammar.Lexeme

/-!
# How tokens are written

Of the spellings of a token one is canonical: numerals are written without superfluous zeros, and in
quotes only what cannot stand there is escaped, together with both kinds of quotes.

* `Token.IsProper`: the tokens that have a spelling.
* `Token.written`: the canonical spelling.
* `Token.spelling_written`: it is one of the spellings.
* `LaidOut`: texts with given tokens; between them stand blanks where it is needed.
* `LaidOut.exists_reads`: such a text begins with these tokens and holds nothing else.
-/

namespace PlcLang.Grammar

/-! ## Numerals -/

theorem ofDigits_digits (n : Nat) : Decimal.ofDigits (Decimal.digits n) = n :=
  Nat.ofDigitChars_ten_toDigits

theorem ofDigits_zeros (n : Nat) (ds : List Char) :
    Decimal.ofDigits (List.replicate n '0' ++ ds) = Decimal.ofDigits ds := by
  induction n with
  | zero => rfl
  | succ n ih => exact ih

theorem isDigit_of_mem_digits {n : Nat} {c : Char} (h : c ∈ Decimal.digits n) : isDigit c = true :=
  Nat.isDigit_of_mem_toDigits (by decide) (by decide) h

theorem isNatural_digits (n : Nat) : IsNatural (Decimal.digits n) := by
  induction n using Nat.strongRecOn with
  | _ n ih =>
    by_cases hn : n < 10
    · have hdigits : Decimal.digits n = [n.digitChar] := Nat.toDigits_of_lt_base hn
      have hdigit := isDigit_of_mem_digits (hdigits ▸ List.mem_cons_self)
      rw [hdigits]
      by_cases hzero : n.digitChar = '0'
      · rw [hzero]
        exact .zero
      · exact .positive hdigit hzero nofun
    · have hdigits : Decimal.digits n = Decimal.digits (n / 10) ++ [(n % 10).digitChar] :=
        Nat.toDigits_of_base_le (by decide) (Nat.le_of_not_lt hn)
      have hpart := ih (n / 10) (by omega)
      generalize hds : Decimal.digits (n / 10) = ds at hpart
      cases hpart with
      | zero =>
        have hvalue := ofDigits_digits (n / 10)
        rw [hds] at hvalue
        have : Decimal.ofDigits ['0'] = 0 := rfl
        omega
      | @positive c cs hc hne _ =>
        rw [hds] at hdigits
        rw [hdigits]
        refine .positive hc hne fun d hd => isDigit_of_mem_digits (n := n) ?_
        rw [hdigits]
        exact List.mem_cons_of_mem _ hd

theorem IsNatural.take {ds : List Char} (h : IsNatural ds) (n : Nat) : IsNatural (ds.take (n + 1)) := by
  cases h with
  | zero =>
    rw [List.take_succ_cons, List.take_nil]
    exact .zero
  | positive hc hne hall => exact .positive hc hne fun d hd => hall d (List.mem_of_mem_take hd)

/-- Positional notation is a natural number, a point and digits that make up the coefficient. -/
theorem exists_pointed (c : Nat) {k : Nat} (hk : k ≠ 0) :
    ∃ whole fraction, Decimal.pointed c k = whole ++ '.' :: fraction ∧ IsNatural whole ∧
      fraction.length = k ∧ (∀ d ∈ fraction, isDigit d = true) ∧
      Decimal.ofDigits (whole ++ fraction) = c := by
  let ds := List.replicate (k + 1 - (Decimal.digits c).length) '0' ++ Decimal.digits c
  have hlength : k + 1 ≤ ds.length := by
    simp only [ds, List.length_append, List.length_replicate]
    omega
  have hdigit : ∀ d ∈ ds, isDigit d = true := by
    intro d hd
    rcases List.mem_append.mp hd with hd | hd
    · rw [(List.mem_replicate.mp hd).2]
      rfl
    · exact isDigit_of_mem_digits hd
  refine ⟨ds.take (ds.length - k), ds.drop (ds.length - k), if_neg hk, ?_, ?_, ?_, ?_⟩
  · obtain ⟨n, hn⟩ : ∃ n, ds.length - k = n + 1 := ⟨ds.length - k - 1, by omega⟩
    rw [hn]
    by_cases hshort : k + 1 ≤ (Decimal.digits c).length
    · have hds : ds = Decimal.digits c := by simp [ds, Nat.sub_eq_zero_of_le hshort]
      rw [hds]
      exact (isNatural_digits c).take n
    · -- the digits are padded with zeros so that one of them is left
      have hds : ds.length = k + 1 := by
        simp only [ds, List.length_append, List.length_replicate]
        omega
      obtain ⟨m, hm⟩ : ∃ m, k + 1 - (Decimal.digits c).length = m + 1 :=
        ⟨k - (Decimal.digits c).length, by omega⟩
      obtain rfl : n = 0 := by omega
      have hfirst : ds.take 1 = ['0'] := by simp [ds, hm, List.replicate_succ]
      rw [hfirst]
      exact .zero
  · rw [List.length_drop]
    omega
  · exact fun d hd => hdigit d (List.mem_of_mem_drop hd)
  · rw [List.take_append_drop]
    exact (ofDigits_zeros _ _).trans (ofDigits_digits c)

/-! ## Characters in quotes -/

/-- A character in quotes of either kind. -/
def writtenChar (c : Char) : List Char :=
  match c with
  | '\n' => ['\\', 'n']
  | '\r' => ['\\', 'r']
  | '\x27' | '\x22' | '\\' => ['\\', c]
  | _ => [c]

theorem Written.append {quote : Char} {cs ds v w : List Char} (h : Written quote cs v)
    (k : Written quote ds w) : Written quote (cs ++ ds) (v ++ w) := by
  induction h with
  | nil => exact k
  | plain hc _ ih => exact .plain hc ih
  | escape hd _ ih => exact .escape hd ih

theorem written_writtenChar {quote : Char} (hquote : quote = '\x27' ∨ quote = '\x22') (c : Char) :
    Written quote [c] (writtenChar c) := by
  unfold writtenChar
  split
  · exact .escape rfl .nil
  · exact .escape rfl .nil
  · exact .escape rfl .nil
  · exact .escape rfl .nil
  · exact .escape rfl .nil
  next hn hr hsingle hdouble hback =>
    refine .plain ?_ .nil
    rcases hquote with rfl | rfl <;> simp only [isPlainIn, Bool.and_eq_true, bne_iff_ne]
    · exact ⟨⟨⟨hsingle, hn⟩, hr⟩, hback⟩
    · exact ⟨⟨⟨hdouble, hn⟩, hr⟩, hback⟩

theorem written_flatMap (quote : Char) (hquote : quote = '\x27' ∨ quote = '\x22') (cs : List Char) :
    Written quote cs (cs.flatMap writtenChar) := by
  induction cs with
  | nil => exact .nil
  | cons c cs ih => exact (written_writtenChar hquote c).append ih

/-! ## Tokens -/

/-- The tokens that have a spelling. -/
def Token.IsProper : Token → Prop
  | word s => s ∈ keywords
  | mark s => s ∈ marks
  | name s => IsIdentifier s
  | decimal d => (Value.decimal d).IsLiteral
  | _ => True

/-- The canonical spelling. -/
def Token.written : Token → List Char
  | word s | mark s | name s => s.toList
  | integer i => Decimal.signText (i < 0) ++ Decimal.digits i.natAbs
  | decimal d => d.plain.toList
  | character c => '\x27' :: writtenChar c ++ ['\x27']
  | string s => '\x22' :: s.toList.flatMap writtenChar ++ ['\x22']

theorem spelling_integer (i : Int) : (Token.integer i).Spelling (Token.integer i).written := by
  have hvalue := ofDigits_digits i.natAbs
  unfold Token.written
  by_cases hi : i < 0
  · have hspelling : (Token.integer (-(Decimal.ofDigits (Decimal.digits i.natAbs) : Int))).Spelling
        ('-' :: Decimal.digits i.natAbs) := .negative (isNatural_digits _) (by omega)
    have heq : -(Decimal.ofDigits (Decimal.digits i.natAbs) : Int) = i := by omega
    rw [heq] at hspelling
    simpa [hi, Decimal.signText] using hspelling
  · have hspelling := Token.Spelling.natural (isNatural_digits i.natAbs)
    have heq : (Decimal.ofDigits (Decimal.digits i.natAbs) : Int) = i := by omega
    rw [heq] at hspelling
    simpa [hi, Decimal.signText] using hspelling

theorem spelling_decimal {d : Decimal} (h : (Value.decimal d).IsLiteral) :
    (Token.decimal d).Spelling (Token.decimal d).written := by
  cases h with
  | @decimal negative c e he =>
    obtain ⟨whole, fraction, hpointed, hwhole, hlength, hdigits, hvalue⟩ :=
      exists_pointed c (k := e.natAbs) (by omega)
    have hne : fraction ≠ [] := by
      rintro rfl
      rw [List.length_nil] at hlength
      omega
    have hparts : Decimal.ofParts negative whole fraction = .finite negative c e := by
      rw [Decimal.ofParts, hvalue, hlength]
      congr
      omega
    have hwritten : (Token.decimal (.finite negative c e)).written =
        Decimal.signText negative ++ whole ++ '.' :: fraction := by
      have hle : e ≤ 0 := Int.le_of_lt he
      simp [Token.written, Decimal.plain, hle, hpointed]
    rw [hwritten, ← hparts]
    exact .decimal hwhole hne hdigits

/-- The canonical spelling is a spelling. -/
theorem Token.spelling_written {t : Token} (h : t.IsProper) : t.Spelling t.written := by
  cases t with
  | word => exact .word h
  | mark => exact .mark h
  | name => exact .name h
  | integer i => exact spelling_integer i
  | decimal d => exact spelling_decimal h
  | character c => exact .character (written_writtenChar (.inl rfl) c)
  | string s =>
    have hspelling := Token.Spelling.string (written_flatMap '\x22' (.inr rfl) s.toList)
    rw [String.ofList_toList] at hspelling
    exact hspelling

/-! ## Layout -/

/-- Characters that begin with blanks and are the spellings of given tokens with blanks between them.
Blanks may be left out where the character that follows is not taken for a part of the token. -/
inductive LaidOut : List Token → List Char → Prop
  | blanks {bs} : (∀ c ∈ bs, isBlank c = true) → LaidOut [] bs
  | token {bs t cs ts rest} : (∀ c ∈ bs, isBlank c = true) → t.Spelling cs →
      (∀ c ∈ rest.head?, t.continuedBy c = false) → LaidOut ts rest →
      LaidOut (t :: ts) (bs ++ cs ++ rest)

/-- The canonical spellings, each followed by a blank. -/
def spaced (ts : List Token) : List Char := ts.flatMap fun t => t.written ++ [' ']

theorem continuedBy_blank (t : Token) : t.continuedBy ' ' = false := by
  unfold Token.continuedBy
  split <;> rfl

theorem laidOut_spaced {ts : List Token} (bs : List Char)
    (h : ∀ t ∈ ts, t.IsProper) (hbs : ∀ c ∈ bs, isBlank c = true) : LaidOut ts (bs ++ spaced ts) := by
  induction ts generalizing bs with
  | nil => exact .blanks (by simpa [spaced] using hbs)
  | cons t ts ih =>
    obtain ⟨ht, hts⟩ := List.forall_mem_cons.mp h
    have hrest := ih [' '] hts (List.forall_mem_singleton.mpr rfl)
    have heq : bs ++ spaced (t :: ts) = bs ++ t.written ++ ([' '] ++ spaced ts) := by
      simp [spaced]
    rw [heq]
    refine .token hbs (Token.spelling_written ht) ?_ hrest
    rintro c ⟨⟩
    exact continuedBy_blank t

theorem isBlank_eq_false {c : Char} (h : 33 ≤ c.toNat ∧ c.toNat ≤ 126) : isBlank c = false := by
  simp only [isBlank, blankRanges, List.any_cons, List.any_nil, Bool.or_eq_false_iff,
    Bool.and_eq_false_iff, decide_eq_false_iff_not, and_true]
  omega

theorem isBlank_eq_false_of_beginsName {c : Char} (h : beginsName c = true) : isBlank c = false := by
  refine isBlank_eq_false ?_
  rcases beginsName_iff.mp h with h | rfl
  · omega
  · decide

theorem isBlank_eq_false_of_isDigit {c : Char} (h : isDigit c = true) : isBlank c = false := by
  refine isBlank_eq_false ?_
  have h := isDigit_iff.mp h
  omega

theorem IsNatural.exists_head {ds : List Char} (h : IsNatural ds) :
    ∃ c cs, ds = c :: cs ∧ isBlank c = false := by
  cases h with
  | zero => exact ⟨'0', [], rfl, rfl⟩
  | positive hc _ _ => exact ⟨_, _, rfl, isBlank_eq_false_of_isDigit hc⟩

/-- No token begins with a blank. -/
theorem Token.Spelling.exists_head {t : Token} {cs : List Char} (h : t.Spelling cs) :
    ∃ c cs', cs = c :: cs' ∧ isBlank c = false := by
  have htext : ∀ s ∈ keywords ++ marks, (s.toList.head?.any fun c => !isBlank c) = true := by
    decide +kernel
  have hhead {s : String} (hs : s ∈ keywords ++ marks) :
      ∃ c cs', s.toList = c :: cs' ∧ isBlank c = false := by
    have hs := htext s hs
    cases hlist : s.toList with
    | nil =>
      rw [hlist] at hs
      cases hs
    | cons c cs =>
      rw [hlist] at hs
      exact ⟨c, cs, rfl, by simpa using hs⟩
  cases h with
  | word hs => exact hhead (List.mem_append_left _ hs)
  | mark hs => exact hhead (List.mem_append_right _ hs)
  | name hs =>
    obtain ⟨⟨c, cs, hs, hc, -⟩, -⟩ := hs
    exact ⟨c, cs, hs, isBlank_eq_false_of_beginsName hc⟩
  | natural hds => exact hds.exists_head
  | negative => exact ⟨'-', _, rfl, rfl⟩
  | @decimal negative whole fraction hwhole =>
    cases negative with
    | true => exact ⟨'-', _, rfl, rfl⟩
    | false =>
      obtain ⟨c, cs, rfl, hc⟩ := hwhole.exists_head
      exact ⟨c, _, rfl, hc⟩
  | character => exact ⟨'\x27', _, rfl, rfl⟩
  | string => exact ⟨'\x22', _, rfl, rfl⟩

/-- A text that is laid out consists of lexemes with its tokens. -/
theorem LaidOut.exists_reads {ts : List Token} {cs : List Char} (h : LaidOut ts cs) {gs : List Glyph}
    (hgs : gs.map Glyph.char = cs) :
    ∃ ls rest, ls.map Lexeme.token = ts ∧ Reads Token.EndsBefore gs ls rest ∧ skipBlanks rest = [] := by
  induction h generalizing gs with
  | blanks hbs =>
    have hall : ∀ g ∈ gs, isBlank g.char = true := fun g hg => hbs _ (hgs ▸ List.mem_map_of_mem hg)
    refine ⟨[], gs, rfl, .nil, ?_⟩
    rw [← List.append_nil gs, skipBlanks, List.dropWhile_append_of_pos hall, List.dropWhile_nil]
  | @token bs t cs ts rest hbs ht hend _ ih =>
    obtain ⟨gs₁, gs₃, rfl, hgs₁, hgs₃⟩ := List.map_eq_append_iff.mp hgs
    obtain ⟨gs₁, gs₂, rfl, hblank, hgs₂⟩ := List.map_eq_append_iff.mp hgs₁
    obtain ⟨ls, rest', hls, hreads, hrest⟩ := ih hgs₃
    have hskip : skipBlanks (gs₁ ++ gs₂ ++ gs₃) = gs₂ ++ gs₃ := by
      obtain ⟨c, cs', rfl, hc⟩ := ht.exists_head
      obtain ⟨g, gs₂, rfl, rfl, -⟩ := List.map_eq_cons_iff.mp hgs₂
      have hall : ∀ g ∈ gs₁, isBlank g.char = true := fun g hg =>
        hbs _ (hblank ▸ List.mem_map_of_mem hg)
      unfold skipBlanks
      rw [List.append_assoc, List.dropWhile_append_of_pos hall, List.cons_append,
        List.dropWhile_cons_of_neg (by simp [hc])]
    refine ⟨⟨t, _⟩ :: ls, rest', congrArg (t :: ·) hls,
      .cons ht (hskip ▸ ⟨gs₂, rfl, hgs₂⟩) (fun g hg => hend _ ?_) hreads, hrest⟩
    rw [← hgs₃, List.head?_map]
    exact Option.mem_map_of_mem _ hg

end PlcLang.Grammar
