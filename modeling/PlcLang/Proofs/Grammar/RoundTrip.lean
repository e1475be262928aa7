import PlcLang.Proofs.Grammar.Complete.Program
import PlcLang.Proofs.Grammar.Overlong
import PlcLang.Proofs.Grammar.Tokens

/-!
# Programs that are written are parsed

* `Node.IsProgram.isProper`: the tokens of a program have spellings.
* `Node.written`: a program as a text, a blank after every token.
* `Node.parse?_laidOut`: every text with the tokens of a program is parsed as this program, if none of
  its integers is too long.
-/

namespace PlcLang

open Grammar

/-! ## Proper tokens -/

/-- All tokens have a spelling. -/
def Grammar.AllProper (ts : List Token) : Prop := ∀ t ∈ ts, t.IsProper

namespace Grammar.AllProper

variable {t : Token} {ts us : List Token} {tss : List (List Token)}

@[simp] theorem nil : AllProper [] := List.forall_mem_nil _

@[simp] theorem cons_iff : AllProper (t :: ts) ↔ t.IsProper ∧ AllProper ts := List.forall_mem_cons

@[simp] theorem append_iff : AllProper (ts ++ us) ↔ AllProper ts ∧ AllProper us :=
  List.forall_mem_append

theorem flatten (h : ∀ ts ∈ tss, AllProper ts) : AllProper tss.flatten := by
  intro t ht
  obtain ⟨ts, hts, ht⟩ := List.mem_flatten.mp ht
  exact h ts hts t ht

theorem separatedTokens (h : ∀ ts ∈ tss, AllProper ts) : AllProper (separatedTokens tss) := by
  cases tss with
  | nil => exact nil
  | cons ts tss =>
    obtain ⟨hts, htss⟩ := List.forall_mem_cons.mp h
    refine append_iff.mpr ⟨hts, fun t ht => ?_⟩
    obtain ⟨us, hus, ht⟩ := List.mem_flatMap.mp ht
    rcases List.mem_cons.mp ht with rfl | ht
    · exact (by decide : "," ∈ marks)
    · exact htss us hus t ht

end Grammar.AllProper

namespace Node

section Proper

variable {N : String → Prop} (hN : ∀ s, N s → IsIdentifier s)

theorem allProper_tokenLists {ns : List Node} (h : ∀ n ∈ ns, AllProper n.tokens) :
    ∀ ts ∈ tokenLists ns, AllProper ts := by
  rw [tokenLists_eq_map]
  exact List.forall_mem_map.mpr h

include hN

theorem IsExpression.allProper {e : Node} (h : e.IsExpression N) : AllProper e.tokens := by
  induction h with
  | literal hv =>
    cases hv with
    | nil => simp [tokens, Value.tokens, Token.IsProper, keywords]
    | boolean b => cases b <;> simp [tokens, Value.tokens, Token.IsProper, keywords]
    | decimal negative c he => simpa [tokens, Value.tokens, Token.IsProper] using .decimal negative c he
    | _ => simp [tokens, Value.tokens, Token.IsProper]
  | group _ ih => simp [tokens, Token.IsProper, marks, ih]
  | binary hop _ _ _ _ ihl ihr => simp [tokens, Token.IsProper, symbol_mem_marks hop, ihl, ihr]
  | reference hs => simp [tokens, Name.tokens, Token.IsProper, Node.isPresent, hN _ hs]
  | item hs he ih =>
    simp [tokens, Name.tokens, Token.IsProper, marks, he.isPresent, hN _ hs, ih]
  | call hs _ ih =>
    have harguments := AllProper.separatedTokens (allProper_tokenLists ih)
    simp [tokens, Name.tokens, Token.IsProper, marks, hN _ hs, harguments]

theorem allProper_typeTokens {t : Name} (h : ∀ s, t = some s → N s) : AllProper (Name.typeTokens t) := by
  cases t with
  | none => exact AllProper.nil
  | some s => simp [Name.typeTokens, Token.IsProper, marks, hN _ (h s rfl)]

theorem IsOptional.allProper {e : Node} (h : e.IsOptional N) :
    AllProper (if e.isPresent then .mark "=" :: e.tokens else []) := by
  rcases h with rfl | h
  · exact AllProper.nil
  · simp [h.isPresent, Token.IsProper, marks, h.allProper hN]

theorem IsStatement.allProper {s : Node} (h : s.IsStatement N) : AllProper s.tokens := by
  induction h with
  | expressionStatement he | returning he =>
    simp [tokens, Token.IsProper, marks, keywords, he.allProper hN]
  | declaration hs ht hv =>
    have htype := allProper_typeTokens hN ht
    have hvalue := hv.allProper hN
    simp [tokens, Name.tokens, Token.IsProper, marks, keywords, hN _ hs, htype, hvalue]
  | assignment hr hv =>
    simp [tokens, Token.IsProper, marks, hr.allProper hN, hv.allProper hN]
  | @conditional c ts es _ hc _ _ ihts ihes =>
    have hts := AllProper.flatten (allProper_tokenLists ihts)
    have hes := AllProper.flatten (allProper_tokenLists ihes)
    have helse : AllProper (if es = [] then [] else .word "ELSE" :: (tokenLists es).flatten) := by
      split <;> simp [Token.IsProper, keywords, hes]
    simp [tokens, Token.IsProper, keywords, hc.allProper hN, hts, helse]
  | @switch c ss _ q arms hc hvalues _ _ iharms ihss =>
    have harms : ∀ k ∈ arms.map ofArm, AllProper k.tokens := by
      intro k hk
      obtain ⟨a, ha, rfl⟩ := List.mem_map.mp hk
      have hblock := AllProper.flatten (allProper_tokenLists (iharms a ha))
      have hvalue := hvalues a ha
      simp [ofArm, tokens, hvalue.isPresent, Token.IsProper, marks, keywords, hvalue.allProper hN,
        hblock]
    have hdefault : AllProper (Node.case .missing ss q).tokens := by
      have hblock := AllProper.flatten (allProper_tokenLists ihss)
      simp [tokens, Node.isPresent, Token.IsProper, keywords, hblock]
    have hcases := AllProper.flatten (allProper_tokenLists (List.forall_mem_append.mpr
      ⟨harms, List.forall_mem_singleton.mpr hdefault⟩))
    simp [tokens, Token.IsProper, keywords, hc.allProper hN, hcases]
  | whileLoop hc _ ih =>
    have hblock := AllProper.flatten (allProper_tokenLists ih)
    simp [tokens, Token.IsProper, keywords, hc.allProper hN, hblock]

theorem IsGlobal.allProper {g : Node} (h : g.IsGlobal N) : AllProper g.tokens := by
  have hword (m : Option Bool) (value : Node) : value.globalWord m ∈ keywords := by
    unfold globalWord
    split
    · decide
    · split <;> decide
  have htype {t : String} (ht : N t) : AllProper (Name.typeTokens (some t)) :=
    allProper_typeTokens hN fun s hs => Option.some.inj hs ▸ ht
  cases h with
  | list hs ht hes =>
    have helements := AllProper.separatedTokens
      (allProper_tokenLists fun e he => (hes e he).allProper hN)
    simp [tokens, Node.isPresent, Name.tokens, Token.IsProper, marks, hword, hN _ hs, htype ht,
      helements]
  | mutable hs ht hv =>
    have hvalue := hv.allProper hN
    simp [tokens, Name.tokens, Token.IsProper, marks, hword, hN _ hs, htype ht, hvalue]
  | immutable hs ht hv =>
    simp [tokens, hv.isPresent, Name.tokens, Token.IsProper, marks, hword, hN _ hs, htype ht,
      hv.allProper hN]

theorem IsFunction.allProper {f : Node} (h : f.IsFunction N) : AllProper f.tokens := by
  cases h with
  | function parameters hs hparameters ht hss =>
    have hblock := AllProper.flatten (allProper_tokenLists fun s hs => (hss s hs).allProper hN)
    have htype := allProper_typeTokens hN ht
    have hseparated : AllProper (separatedTokens (parameters.map fun x =>
        [.name x.1, .mark ":", .name x.2])) := by
      refine AllProper.separatedTokens (List.forall_mem_map.mpr fun x hx => ?_)
      obtain ⟨hname, htype⟩ := hparameters x hx
      simp [Token.IsProper, marks, hN _ hname, hN _ htype]
    rw [tokens, zipWith_parameters]
    simp [Name.tokens, Token.IsProper, marks, keywords, hN _ hs, htype, hblock, hseparated]

theorem IsProgram.allProper {t : Node} (h : t.IsProgram N) : AllProper t.tokens := by
  cases h with
  | source hgs hfs =>
    have hglobals := AllProper.flatten (allProper_tokenLists fun g hg => (hgs g hg).allProper hN)
    have hfunctions := AllProper.flatten (allProper_tokenLists fun f hf => (hfs f hf).allProper hN)
    simp [tokens, hglobals, hfunctions]

end Proper

/-! ## Writing -/

/-- The program as a text: its tokens in their canonical spellings, a blank after each. -/
def written (t : Node) : String := String.ofList (spaced t.tokens)

/-- **Programs are parsed.** A tree with the shape of a program whose names are plain can be written,
and if none of its integers is too long, then every text with its tokens, spelled in any way, with blanks
between them wherever they are needed, is parsed as this tree. -/
theorem parse?_laidOut {t : Node} (h : t.IsProgram PlainName) (hfits : ∀ x ∈ t.tokens, x.Fits) :
    LaidOut t.tokens t.written.toList ∧
      ∀ text, LaidOut t.tokens text.toList → (parse? text).map skeleton = some t.skeleton := by
  constructor
  · rw [written, String.toList_ofList]
    exact laidOut_spaced [] (h.allProper fun _ hs => hs.1) (List.forall_mem_nil _)
  · intro text hlaid
    obtain ⟨ls, rest, hls, hreads, hrest⟩ := hlaid.exists_reads (map_char_locate text)
    obtain ⟨t', hskeleton, hspells⟩ := h.exists_spells hls
    have hreadable := hreads.readable (List.forall_mem_map.mp (hls ▸ hfits))
    have hparse : parse text = .ok t' := ofGlyphs_of_spells hspells hreadable hrest
    rw [parse?_eq_some_iff.mpr hparse, Option.map_some, hskeleton]

/-- A constant whose name and whose value hold a `-` each, and a difference. -/
def difference : Node :=
  .source [.global (some "a-1") (some "INTEGER") (some false)
    (.binary .minus (.literal (.integer 3) none .unknown) (.literal (.integer (-1)) none .unknown) none
      .unknown) none .unknown] []

theorem parse?_laidOut_difference :
    difference.IsProgram PlainName ∧ (∀ x ∈ difference.tokens, x.Fits) ∧
      difference.written = "VAL a-1 : INTEGER = 3 - -1 ; " ∧
      (parse? difference.written).map skeleton = some difference.skeleton := by
  have hprogram : difference.IsProgram PlainName := by
    refine .source (List.forall_mem_singleton.mpr ?_) (List.forall_mem_nil _)
    refine .immutable (by decide +kernel) (by decide +kernel) ?_
    exact .binary (l := .additive) rfl (.literal (.integer 3)) nofun (.literal (.integer (-1))) nofun
  obtain ⟨hlaid, hparse⟩ := parse?_laidOut hprogram (by decide +kernel)
  exact ⟨hprogram, by decide +kernel, by decide +kernel, hparse _ hlaid⟩

/-- A function that returns an integer. -/
def returningInteger (i : Int) : Node :=
  .source [] [.function (some "main") [] [] (some "Integer")
    [.returning (.literal (.integer i) none .unknown) .unknown] none .unknown]

theorem isProgram_returningInteger (i : Int) : (returningInteger i).IsProgram PlainName := by
  refine .source (List.forall_mem_nil _) (List.forall_mem_singleton.mpr ?_)
  refine .function [] (by decide +kernel) (List.forall_mem_nil _) ?_ (List.forall_mem_singleton.mpr ?_)
  · rintro _ ⟨⟩
    decide +kernel
  · exact .returning (.literal (.integer i))

/-- A program that returns an integer with one digit too many, and its tokens as a text, which has no tree. -/
theorem parse?_laidOut_too_long :
    (returningInteger (repunit 4301)).IsProgram PlainName ∧
      LaidOut (returningInteger (repunit 4301)).tokens
        ("FUN main(): Integer DO RETURN " ++ ones 4301 ++ "; END").toList ∧
      parse? ("FUN main(): Integer DO RETURN " ++ ones 4301 ++ "; END") = none := by
  have hspelling : (Token.integer (repunit 4301)).Spelling (ones 4301).toList := spelling_ones (by decide)
  have hlong : ¬ Numeral.Fits (repunit 4301) := mt (fits_repunit_iff (by decide)).mp (by decide)
  refine ⟨isProgram_returningInteger _, laidOut_returningTokens hspelling, ?_⟩
  rw [parse?, parse_returning_overlong hspelling hlong]
  rfl

end Node

end PlcLang
