import PlcLang.Grammar.Expression
import PlcLang.Proofs.Grammar.Refusal

/-!
# The next token

Which token comes next decides which parsers of tokens succeed. A name that goes on after a word of
the language with `_` or `-` would be taken for that word, so it is excluded.

* `PlainName`: the names that no word is mistaken for.
* `Offers`: the next token and what follows it.
* `Offers.word_eq`, `Offers.name_eq`, …: a token is read by its own parser.
* `Offers.word_eq_mismatch`, `Offers.name_eq_mismatch`, …: the other parsers refuse it.
* `Offers.literal_eq`, `Offers.literal_eq_mismatch`: a token is read as a literal if it has a value.
-/

namespace PlcLang.Grammar

/-- A name that does not begin with a word of the language and a `_` or `-` behind it. -/
def PlainName (s : String) : Prop :=
  IsIdentifier s ∧ ∀ w ∈ keywords, ∀ c ∈ ['_', '-'], ¬ w.toList ++ [c] <+: s.toList

instance (s : String) : Decidable (PlainName s) :=
  decidable_of_iff (IsIdentifier s ∧ (keywords.all fun w => ['_', '-'].all fun c =>
    !(w.toList ++ [c]).isPrefixOf s.toList) = true) (by simp [PlainName, ← List.isPrefixOf_iff_prefix])

/-- Names are plain. -/
def Token.IsPlain : Token → Prop
  | name s => PlainName s
  | _ => True

/-- The next token is `t`, and it ends where `rest` begins. -/
def Offers (gs : List Glyph) (t : Token) (rest : List Glyph) : Prop :=
  ∃ cs, t.Spelling cs ∧ Splits (skipBlanks gs) cs rest ∧ t.EndsBefore rest

theorem Reads.exists_of_cons {gs rest : List Glyph} {t : Token} {p : Place} {ls : List Lexeme}
    (h : Reads Token.ReadableBefore gs (⟨t, p⟩ :: ls) rest) :
    ∃ gs', Offers gs t gs' ∧ Reads Token.ReadableBefore gs' ls rest := by
  cases h with
  | cons hs hw he h => exact ⟨_, ⟨_, hs, hw, he.1⟩, h⟩

theorem Reads.fits {gs rest : List Glyph} {x : Lexeme} {ls : List Lexeme}
    (h : Reads Token.ReadableBefore gs (x :: ls) rest) : x.token.Fits := by
  cases h with
  | cons _ _ he _ => exact he.2

/-! ## First characters -/

/-- What the first character of a token says about the token. -/
inductive Lead where
  | letter
  | numeral
  | apostrophe
  | quote
  | other
  deriving DecidableEq

/-- What a first character says. -/
def leadOf (c : Char) : Lead :=
  if beginsName c then .letter
  else if c == '-' || isDigit c then .numeral
  else if c == '\x27' then .apostrophe
  else if c == '\x22' then .quote
  else .other

/-- What the first character of the token says. -/
def Token.lead : Token → Lead
  | word _ | name _ => .letter
  | integer _ | decimal _ => .numeral
  | character _ => .apostrophe
  | string _ => .quote
  | mark s => if s = "-" then .numeral else .other

theorem lead_mark_ne_letter {s : String} : (Token.mark s).lead ≠ .letter := by
  by_cases h : s = "-" <;> simp [Token.lead, h]

theorem leadOf_of_beginsName {c : Char} (h : beginsName c = true) : leadOf c = .letter := if_pos h

theorem leadOf_of_isDigit {c : Char} (h : isDigit c = true) : leadOf c = .numeral := by
  have hname : ¬ beginsName c = true := by
    have hc := isDigit_iff.mp h
    rw [beginsName_iff]
    rintro (hletter | rfl)
    · omega
    · cases h
  simp [leadOf, hname, h]

theorem isAlpha_of_mem_keywords {w : String} (hw : w ∈ keywords) :
    ∀ c ∈ w.toList, c.isAlpha = true := by
  have hall : (keywords.all fun w => w.toList.all Char.isAlpha) = true := by decide +kernel
  exact List.all_eq_true.mp (List.all_eq_true.mp hall w hw)

theorem toList_ne_nil_of_mem_keywords {w : String} (hw : w ∈ keywords) : w.toList ≠ [] := by
  revert w
  decide +kernel

theorem toList_ne_nil_of_mem_marks {s : String} (hs : s ∈ marks) : s.toList ≠ [] := by
  revert s
  decide +kernel

theorem IsNatural.leadOf_eq {ds : List Char} (h : IsNatural ds) : ds.head?.map leadOf = some .numeral := by
  cases h with
  | zero => rfl
  | positive hc _ _ => exact congrArg some (leadOf_of_isDigit hc)

theorem Token.Spelling.lead_eq {t : Token} {cs : List Char} (h : t.Spelling cs) :
    cs.head?.map leadOf = some t.lead := by
  cases h with
  | @word s hs =>
    revert s
    decide +kernel
  | @mark s hs =>
    revert s
    decide +kernel
  | name hs =>
    obtain ⟨⟨c, cs, hs, hc, -⟩, -⟩ := hs
    rw [hs]
    exact congrArg some (leadOf_of_beginsName hc)
  | natural hds => exact hds.leadOf_eq
  | negative | character | string => rfl
  | @decimal negative whole fraction hwhole =>
    cases negative with
    | true => rfl
    | false =>
      have hlead := hwhole.leadOf_eq
      cases whole with
      | nil => cases hlead
      | cons => exact hlead

/-! ## Comparing readings -/

namespace Splits

variable {gs rest rest' : List Glyph} {c : Char} {cs ds : List Char} {test : Char → Bool}

theorem head?_eq (h : Splits gs cs rest) (hcs : cs ≠ []) : gs.head?.map Glyph.char = cs.head? := by
  obtain ⟨c, cs, rfl⟩ := List.exists_cons_of_ne_nil hcs
  obtain ⟨g, gs', rfl, rfl, -⟩ := cons_iff.mp h
  rfl

/-- Of two readings of the same glyphs, one goes on where the other ends. -/
theorem compare (h : Splits gs cs rest) (k : Splits gs ds rest') :
    (∃ u, ds = cs ++ u ∧ Splits rest u rest') ∨ ∃ u, cs = ds ++ u ∧ Splits rest' u rest := by
  obtain ⟨v, rfl, rfl⟩ := h
  obtain ⟨w, he, rfl⟩ := k
  rcases List.append_eq_append_iff.mp he with ⟨u, rfl, rfl⟩ | ⟨u, rfl, rfl⟩
  · exact .inl ⟨u.map Glyph.char, List.map_append, u, rfl, rfl⟩
  · exact .inr ⟨u.map Glyph.char, List.map_append, u, rfl, rfl⟩

theorem eq_false_of_stops (h : Splits gs (c :: cs) rest) (hs : Stops test gs) : test c = false := by
  obtain ⟨g, gs', rfl, rfl, -⟩ := cons_iff.mp h
  exact hs g rfl

/-- Two readings that both stop where a run of characters stops take the same characters. -/
theorem eq_of_stops (h : Splits gs cs rest) (k : Splits gs ds rest') (hs : Stops test rest)
    (ks : Stops test rest') (hcs : cs ≠ []) (hds : ds ≠ []) (hc : ∀ c ∈ cs.tail, test c = true)
    (hd : ∀ c ∈ ds.tail, test c = true) : cs = ds := by
  rcases h.compare k with ⟨u, rfl, hu⟩ | ⟨u, rfl, hu⟩
  · cases u with
    | nil => exact (List.append_nil _).symm
    | cons c u =>
      have hmem : c ∈ (cs ++ c :: u).tail := by simp [List.tail_append_of_ne_nil hcs]
      cases (hu.eq_false_of_stops hs).symm.trans (hd c hmem)
  · cases u with
    | nil => exact List.append_nil _
    | cons c u =>
      have hmem : c ∈ (ds ++ c :: u).tail := by simp [List.tail_append_of_ne_nil hds]
      cases (hu.eq_false_of_stops ks).symm.trans (hc c hmem)

end Splits

/-! ## Leads -/

/-- What the first character of the next token says, if there is one. -/
def lead (gs : List Glyph) : Option Lead := (skipBlanks gs).head?.map fun g => leadOf g.char

theorem lead_of_splits {gs rest : List Glyph} {t : Token} {cs : List Char} (ht : t.Spelling cs)
    (h : Splits (skipBlanks gs) cs rest) : lead gs = some t.lead := by
  have hlead := ht.lead_eq
  have hcs : cs ≠ [] := by
    rintro rfl
    cases hlead
  rw [← h.head?_eq hcs, Option.map_map] at hlead
  exact hlead

theorem Reads.lead_eq {E : Token → List Glyph → Prop} {gs rest : List Glyph} {x : Lexeme}
    {ls : List Lexeme} (h : Reads E gs (x :: ls) rest) : lead gs = some x.token.lead := by
  cases h with
  | cons ht hw _ _ => exact lead_of_splits ht hw

/-- The parser takes only what begins with a character that says `k`, or stumbles over it. -/
def Leads {α : Type} (p : Parser α) (k : Lead) : Prop :=
  ∀ ⦃gs⦄, p gs ≠ .error .mismatch → lead gs = some k

theorem Leads.eq_mismatch {α : Type} {p : Parser α} {k : Lead} (hp : Leads p k) {gs : List Glyph}
    (h : lead gs ≠ some k) : p gs = .error .mismatch :=
  Classical.not_not.mp fun hgs => h (hp hgs)

theorem leads_of_ok {α : Type} {p : Parser α} {k : Lead} (hp : NeverOverlong p)
    (h : ∀ {gs a rest}, p gs = .ok (a, rest) → lead gs = some k) : Leads p k := by
  intro gs hgs
  refine Classical.not_not.mp fun hlead => hgs ?_
  exact eq_mismatch_of_refutes hp fun hok => hlead (h hok)

theorem leads_word {w : String} (hw : w ∈ keywords) : Leads (word w) .letter :=
  leads_of_ok .word fun h => (reads_word hw h).lead_eq

theorem leads_mark {s : String} (hs : s ∈ marks) : Leads (mark s) (Token.mark s).lead :=
  leads_of_ok .mark fun h => (reads_mark hs h).lead_eq

theorem leads_integer : Leads integer .numeral := by
  intro gs hgs
  -- the sign and the digits are there, even if there are too many of them
  cases h : integer gs with
  | ok r => exact (reads_integer h).lead_eq
  | error e =>
    cases e with
    | mismatch => exact absurd h hgs
    | overlong =>
      obtain ⟨negative, ds, _, hds, hlong, hsplits, -⟩ := integer_eq_overlong.mp h
      cases negative with
      | false => exact lead_of_splits (.natural hds) hsplits
      | true => exact lead_of_splits (.negative hds (hds.ofDigits_ne_zero hlong)) hsplits

theorem leads_decimal : Leads decimal .numeral :=
  leads_of_ok .decimal fun h => (reads_decimal h).2.lead_eq

theorem leads_character : Leads character .apostrophe := leads_of_ok .character fun h => by
  obtain ⟨_, _, h⟩ := reads_character h
  exact h.lead_eq

theorem leads_string : Leads string .quote := leads_of_ok .string fun h => (reads_string h).lead_eq

/-- The words that are literals. -/
def literalWords : List String := ["NIL", "TRUE", "FALSE"]

theorem literalWords_subset : literalWords ⊆ keywords := by decide

/-! ## What is read -/

namespace Offers

variable {gs rest : List Glyph} {t : Token} {s w : String}

theorem lead_eq (h : Offers gs t rest) : lead gs = some t.lead := by
  obtain ⟨_, ht, hsplits, -⟩ := h
  exact lead_of_splits ht hsplits

theorem word_eq (h : Offers gs (.word w) rest) : word w gs = .ok ((), rest) := by
  obtain ⟨_, hw, hsplits, hend⟩ := h
  cases hw
  refine word_eq_ok.mpr ⟨hsplits, fun g hg => ?_⟩
  have hg := hend g hg
  simp only [Token.continuedBy, continuesName, Bool.or_eq_false_iff] at hg
  exact hg.1.1

theorem mark_eq (h : Offers gs (.mark s) rest) : mark s gs = .ok ((), rest) := by
  obtain ⟨_, hs, hsplits, -⟩ := h
  cases hs
  exact mark_eq_ok.mpr hsplits

theorem name_eq (h : Offers gs (.name s) rest) : name gs = .ok (s, rest) := by
  obtain ⟨_, hs, hsplits, hend⟩ := h
  cases hs with
  | name hs => exact name_eq_ok.mpr ⟨hs, hsplits, hend⟩

/-- An integer is a sign and digits, behind which no digit and no point stands. -/
theorem exists_numeral {i : Int} (h : Offers gs (.integer i) rest) : ∃ negative ds, IsNatural ds ∧
    (negative && Decimal.ofDigits ds == 0) = false ∧
    i = (if negative then -(Decimal.ofDigits ds : Int) else Decimal.ofDigits ds) ∧
    Splits (skipBlanks gs) (Decimal.signText negative ++ ds) rest ∧
    Stops isDigit rest ∧ Stops (· == '.') rest := by
  obtain ⟨_, hi, hsplits, hend⟩ := h
  have hstop : Stops isDigit rest := fun g hg => (Bool.or_eq_false_iff.mp (hend g hg)).1
  have hpoint : Stops (· == '.') rest := fun g hg => (Bool.or_eq_false_iff.mp (hend g hg)).2
  cases hi with
  | natural hds => exact ⟨false, _, hds, rfl, rfl, hsplits, hstop, hpoint⟩
  | negative hds hne => exact ⟨true, _, hds, by simpa using hne, rfl, hsplits, hstop, hpoint⟩

theorem integer_eq {i : Int} (h : Offers gs (.integer i) rest) (hfits : Numeral.Fits i) :
    integer gs = .ok (i, rest) := by
  obtain ⟨negative, ds, hds, hzero, rfl, hsplits, hstop, -⟩ := h.exists_numeral
  exact integer_eq_ok.mpr ⟨negative, ds, hds, hzero, (fits_iff negative hds).mp hfits, rfl, hsplits, .inr hstop⟩

/-- An integer that is too long is not read. -/
theorem integer_eq_overlong {i : Int} (h : Offers gs (.integer i) rest) (hlong : ¬ Numeral.Fits i) :
    integer gs = .error .overlong := by
  obtain ⟨negative, ds, hds, -, rfl, hsplits, hstop, -⟩ := h.exists_numeral
  rw [fits_iff negative hds, Nat.not_le] at hlong
  exact Grammar.integer_eq_overlong.mpr ⟨negative, ds, rest, hds, hlong, hsplits, .inr hstop⟩

theorem decimal_eq {d : Decimal} (h : Offers gs (.decimal d) rest) :
    decimal gs = .ok (d, rest) := by
  obtain ⟨_, hd, hsplits, hend⟩ := h
  have hstop : Stops isDigit rest := fun g hg => (Bool.or_eq_false_iff.mp (hend g hg)).1
  cases hd with
  | decimal hwhole hne hall =>
    exact decimal_eq_ok.mpr ⟨_, _, _, hwhole, hne, hall, rfl, hsplits, hstop⟩

theorem character_eq {c : Char} (h : Offers gs (.character c) rest) :
    character gs = .ok (String.singleton c, rest) := by
  obtain ⟨_, hc, hsplits, -⟩ := h
  cases hc with
  | character hw => exact character_eq_ok.mpr ⟨c, _, rfl, hw, hsplits⟩

theorem string_eq (h : Offers gs (.string s) rest) : string gs = .ok (s, rest) := by
  obtain ⟨_, hs, hsplits, -⟩ := h
  cases hs with
  | string hw => exact string_eq_ok.mpr ⟨_, _, rfl, hw, hsplits⟩

/-! ## What is refused -/

theorem mark_eq_mismatch_of_letter (h : Offers gs t rest) (ht : t.lead = .letter) (hs : s ∈ marks) :
    mark s gs = .error .mismatch := by
  refine (leads_mark hs).eq_mismatch ?_
  rw [h.lead_eq, ht]
  exact fun he => lead_mark_ne_letter (Option.some.inj he).symm

/-- A mark is refused where another one begins differently. -/
theorem mark_eq_mismatch {s' : String} (h : Offers gs (.mark s') rest) (hs : s ∈ marks)
    (hne : s.toList.head? ≠ s'.toList.head?) : mark s gs = .error .mismatch := by
  obtain ⟨_, hs', hsplits, -⟩ := h
  cases hs' with
  | mark hs' =>
    refine eq_mismatch_of_refutes .mark fun hok => ?_
    have hhead := (mark_eq_ok.mp hok).head?_eq (toList_ne_nil_of_mem_marks hs)
    exact hne (hhead.symm.trans (hsplits.head?_eq (toList_ne_nil_of_mem_marks hs')))

theorem mark_equal_eq_mismatch (h : Offers gs (.mark "=") rest) : mark "==" gs = .error .mismatch := by
  obtain ⟨_, hs, hsplits, hend⟩ := h
  cases hs
  refine eq_mismatch_of_refutes .mark fun hok => ?_
  obtain ⟨gs', hfirst, hsecond⟩ := (mark_eq_ok.mp hok).exists_of_cons
  obtain rfl := hfirst.unique hsplits
  cases (hsecond.eq_false_of_stops hend :)

/-- Letters, digits, `_` and `-` are taken for a word only if they are that word or go on with `_`
or `-` after it. -/
theorem eq_of_taken {gs rest' : List Glyph} (hs : Splits gs s.toList rest)
    (hend : Stops continuesName rest) (htail : ∀ c ∈ s.toList.tail, continuesName c = true)
    (hplain : ∀ c ∈ ['_', '-'], ¬ w.toList ++ [c] <+: s.toList) (hw : w ∈ keywords)
    (hword : Splits gs w.toList rest') (hstop : Stops Char.isAlphanum rest') : s = w := by
  have halpha := isAlpha_of_mem_keywords hw
  rcases hs.compare hword with ⟨u, he, hu⟩ | ⟨u, he, hu⟩
  · cases u with
    | nil => exact (String.toList_inj.mp (he.trans (List.append_nil _))).symm
    | cons c u =>
      have hc : continuesName c = true := by
        simp [continuesName, Char.isAlphanum, halpha c (by simp [he])]
      cases (hu.eq_false_of_stops hend).symm.trans hc
  · cases u with
    | nil => exact String.toList_inj.mp (he.trans (List.append_nil _))
    | cons c u =>
      have hmem : c ∈ s.toList.tail := by
        simp [he, List.tail_append_of_ne_nil (toList_ne_nil_of_mem_keywords hw)]
      have hc := htail c hmem
      simp only [continuesName, hu.eq_false_of_stops hstop, Bool.false_or, Bool.or_eq_true,
        beq_iff_eq] at hc
      exact absurd ⟨u, by simp [he]⟩ (hplain c (by simpa using hc))

/-- A name is not taken for a word that it does not begin with. -/
theorem word_eq_mismatch_of_name (h : Offers gs (.name s) rest) (hw : w ∈ keywords)
    (hplain : ∀ c ∈ ['_', '-'], ¬ w.toList ++ [c] <+: s.toList) : word w gs = .error .mismatch := by
  refine eq_mismatch_of_refutes .word fun hok => ?_
  obtain ⟨_, hs, hsplits, hend⟩ := h
  obtain ⟨hword, hstop⟩ := word_eq_ok.mp hok
  cases hs with
  | name hs =>
    obtain ⟨⟨c, cs, he, -, hcs⟩, hkeyword⟩ := hs
    have htail : ∀ c ∈ s.toList.tail, continuesName c = true := by simpa [he] using hcs
    exact hkeyword (eq_of_taken hsplits hend htail hplain hw hword hstop ▸ hw)

/-- A name is taken for a word that it begins with, if neither a letter nor a digit follows. -/
theorem exists_word_eq_of_name {c : Char} (h : Offers gs (.name s) rest)
    (hbegins : w.toList ++ [c] <+: s.toList) (hc : c.isAlphanum = false) :
    ∃ rest', word w gs = .ok ((), rest') := by
  obtain ⟨_, hs, hsplits, -⟩ := h
  obtain ⟨u, hu⟩ := hbegins
  cases hs with
  | name =>
    rw [← hu] at hsplits
    obtain ⟨_, hbegin, -⟩ := Splits.append_iff.mp hsplits
    obtain ⟨rest', hword, hnext⟩ := Splits.append_iff.mp hbegin
    obtain ⟨g, _, rfl, rfl, -⟩ := Splits.cons_iff.mp hnext
    refine ⟨_, word_eq_ok.mpr ⟨hword, fun _ hg => ?_⟩⟩
    cases hg
    exact hc

/-- A token is taken for a word only if it is that word. -/
theorem word_eq_mismatch (h : Offers gs t rest) (ht : t.IsPlain) (hw : w ∈ keywords)
    (hne : t ≠ .word w) : word w gs = .error .mismatch := by
  refine eq_mismatch_of_refutes .word fun hok => ?_
  have hlead := Option.some.inj (h.lead_eq.symm.trans (reads_word hw hok).lead_eq)
  obtain ⟨_, hspelling, hsplits, hend⟩ := h
  obtain ⟨hword, hstop⟩ := word_eq_ok.mp hok
  cases hspelling with
  | @word s hs =>
    have halpha := isAlpha_of_mem_keywords hs
    refine hne (congrArg Token.word (eq_of_taken hsplits hend (fun c hc => ?_) ?_ hw hword hstop))
    · simp [continuesName, Char.isAlphanum, halpha c (List.mem_of_mem_tail hc)]
    · intro c hc hstart
      have hletter := halpha c (hstart.subset (by simp))
      obtain rfl | rfl : c = '_' ∨ c = '-' := by simpa using hc
      all_goals cases hletter
  | @name s hs =>
    have hnone := word_eq_mismatch_of_name ⟨_, .name hs, hsplits, hend⟩ hw (ht.2 w hw)
    cases hnone.symm.trans hok
  | mark => exact absurd hlead lead_mark_ne_letter
  | _ => cases hlead

/-- Before a word the choice that goes with it is read. -/
theorem byWord_eq {α : Type} {choices : List (String × Parser α)} {p otherwise : Parser α}
    (h : Offers gs (.word w) rest) (hchoices : choices.map Prod.fst ⊆ keywords)
    (hp : choices.lookup w = some p) : byWord choices otherwise gs = p rest := by
  induction choices with
  | nil => cases hp
  | cons c choices ih =>
    obtain ⟨w', q⟩ := c
    obtain ⟨hw', hchoices⟩ := List.cons_subset.mp hchoices
    unfold byWord
    by_cases hw : w = w'
    · rw [← hw, List.lookup_cons_self] at hp
      rw [← hw, commit_of_ok h.word_eq, Option.some.inj hp]
    · rw [List.lookup_cons, beq_eq_false_iff_ne.mpr hw] at hp
      rw [commit_of_mismatch (h.word_eq_mismatch trivial hw' fun he => hw (Token.word.inj he))]
      exact ih hchoices hp

/-- Before another token the words are passed over. -/
theorem byWord_eq_otherwise {α : Type} {choices : List (String × Parser α)} {otherwise : Parser α}
    (h : Offers gs t rest) (ht : t.IsPlain) (hchoices : choices.map Prod.fst ⊆ keywords)
    (hne : ∀ w ∈ choices.map Prod.fst, t ≠ .word w) : byWord choices otherwise gs = otherwise gs :=
  byWord_of_mismatch fun w hw => h.word_eq_mismatch ht (hchoices hw) (hne w hw)

/-- A token is taken for a name only if it is one. -/
theorem name_eq_mismatch (h : Offers gs t rest) (ht : ∀ s, t ≠ .name s) : name gs = .error .mismatch := by
  refine eq_mismatch_of_refutes .name fun {s rest'} hok => ?_
  have hlead := h.lead_eq.symm.trans (reads_name hok).2.lead_eq
  obtain ⟨_, hspelling, hsplits, hend⟩ := h
  obtain ⟨⟨⟨c, cs, hs, hc, hcs⟩, hkeyword⟩, hname, hstop⟩ := name_eq_ok.mp hok
  cases hspelling with
  | @word w hw =>
    have halpha := isAlpha_of_mem_keywords hw
    have heq : s.toList = w.toList := by
      refine hname.eq_of_stops hsplits hstop hend (by simp [hs]) (toList_ne_nil_of_mem_keywords hw)
        (by simpa [hs] using hcs) fun d hd => ?_
      simp [continuesName, Char.isAlphanum, halpha d (List.mem_of_mem_tail hd)]
    exact hkeyword (String.toList_inj.mp heq ▸ hw)
  | name => exact ht _ rfl
  | mark => exact absurd (Option.some.inj hlead) lead_mark_ne_letter
  | _ => cases hlead

/-- A numeral that does not go on with a point is no decimal. -/
theorem decimal_eq_mismatch {i : Int} (h : Offers gs (.integer i) rest) :
    decimal gs = .error .mismatch := by
  refine eq_mismatch_of_refutes .decimal fun {d rest'} hok => ?_
  obtain ⟨negative, ds, hds, -, -, hsplits, hstop, hpoint⟩ := h.exists_numeral
  obtain ⟨gs₁, hsign, hnatural⟩ := Splits.append_iff.mp hsplits
  -- the decimal would begin with the same sign and the same natural number
  have hsign : sign (skipBlanks gs) = .ok (negative, gs₁) :=
    sign_eq_ok.mpr ⟨hsign, fun _ => hds.stops hnatural⟩
  have hnatural : natural gs₁ = .ok (ds, rest) := natural_eq_ok.mpr ⟨hds, hnatural, .inr hstop⟩
  simp only [decimal, token, bind_eq_ok] at hok
  obtain ⟨_, _, hsign', _, _, hnatural', c, _, hone, -⟩ := hok
  cases hsign.symm.trans hsign'
  cases hnatural.symm.trans hnatural'
  obtain ⟨hc, hsplits⟩ := one_eq_ok.mp hone
  cases hc.symm.trans (hsplits.eq_false_of_stops hpoint)

/-! ## Literals -/

variable {p : Place}

theorem literal_eq_wordless (h : Offers gs t rest) (ht : t.IsPlain)
    (hne : ∀ w ∈ literalWords, t ≠ .word w) : literal p gs = wordlessLiteral p gs :=
  h.byWord_eq_otherwise ht literalWords_subset hne

theorem literal_eq {v : Value} (h : Offers gs t rest) (hfits : t.Fits) (hv : t.value? = some v) :
    literal p gs = .ok (.literal v none p, rest) := by
  have hlead := h.lead_eq
  unfold Token.value? at hv
  split at hv
  -- the first three are words, which are tried first
  next =>
    cases hv
    have heq : literal p gs = (pure (.literal .nil none p) : Parser Node) rest :=
      h.byWord_eq literalWords_subset rfl
    exact heq
  next =>
    cases hv
    have heq : literal p gs = (pure (.literal (.boolean true) none p) : Parser Node) rest :=
      h.byWord_eq literalWords_subset rfl
    exact heq
  next =>
    cases hv
    have heq : literal p gs = (pure (.literal (.boolean false) none p) : Parser Node) rest :=
      h.byWord_eq literalWords_subset rfl
    exact heq
  next i =>
    cases hv
    rw [h.literal_eq_wordless trivial fun _ _ => Token.noConfusion, wordlessLiteral,
      commit_of_mismatch h.decimal_eq_mismatch, commit_of_ok (h.integer_eq hfits)]
    rfl
  next d =>
    cases hv
    rw [h.literal_eq_wordless trivial fun _ _ => Token.noConfusion, wordlessLiteral,
      commit_of_ok h.decimal_eq]
    rfl
  next c =>
    cases hv
    rw [h.literal_eq_wordless trivial fun _ _ => Token.noConfusion, wordlessLiteral,
      commit_of_mismatch (leads_decimal.eq_mismatch (by rw [hlead]; nofun)),
      commit_of_mismatch (leads_integer.eq_mismatch (by rw [hlead]; nofun)),
      commit_of_ok h.character_eq]
    rfl
  next s =>
    cases hv
    rw [h.literal_eq_wordless trivial fun _ _ => Token.noConfusion, wordlessLiteral,
      commit_of_mismatch (leads_decimal.eq_mismatch (by rw [hlead]; nofun)),
      commit_of_mismatch (leads_integer.eq_mismatch (by rw [hlead]; nofun)),
      commit_of_mismatch (leads_character.eq_mismatch (by rw [hlead]; nofun)),
      commit_of_ok h.string_eq]
    rfl
  next => cases hv

/-- An integer that is too long is no literal, and nothing else is tried. -/
theorem literal_eq_overlong {i : Int} (h : Offers gs (.integer i) rest) (hlong : ¬ Numeral.Fits i) :
    literal p gs = .error .overlong := by
  rw [h.literal_eq_wordless trivial fun _ _ => Token.noConfusion, wordlessLiteral,
    commit_of_mismatch h.decimal_eq_mismatch, commit_of_overlong (h.integer_eq_overlong hlong)]

/-- No literal begins with a letter or a mark, the words aside. -/
theorem wordlessLiteral_eq_mismatch (h : ∀ k, lead gs = some k → k = .letter ∨ k = .other) :
    wordlessLiteral p gs = .error .mismatch := by
  have hne {k : Lead} (hk : ¬ (k = .letter ∨ k = .other)) : lead gs ≠ some k := fun he => hk (h k he)
  rw [wordlessLiteral, commit_of_mismatch (leads_decimal.eq_mismatch (hne (by decide))),
    commit_of_mismatch (leads_integer.eq_mismatch (hne (by decide))),
    commit_of_mismatch (leads_character.eq_mismatch (hne (by decide))),
    commit_of_mismatch (leads_string.eq_mismatch (hne (by decide)))]
  rfl

theorem literal_eq_mismatch (h : Offers gs t rest) (ht : t.IsPlain) (hv : t.value? = none)
    (hminus : t ≠ .mark "-") : literal p gs = .error .mismatch := by
  rw [h.literal_eq_wordless ht]
  · refine wordlessLiteral_eq_mismatch fun k hk => ?_
    obtain rfl := Option.some.inj (h.lead_eq.symm.trans hk)
    cases t with
    | word | name => exact .inl rfl
    | mark s => exact .inr (if_neg fun hs => hminus (congrArg Token.mark hs))
    | _ => cases hv
  · rintro w hw rfl
    have hvalue : ∀ w ∈ literalWords, (Token.word w).value?.isSome = true := by decide
    have hsome := hvalue w hw
    rw [hv] at hsome
    cases hsome

end Offers

end PlcLang.Grammar
