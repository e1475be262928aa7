import Mathlib
import PlcLang.Proofs.Grammar.Sound
import PlcLang.Proofs.Grammar.Tokens
import PlcLang.Proofs.Grammar.Unique

/-!
# What a parsed text consists of

A text that is parsed holds the tokens of its tree in the order of the grammar and nothing else. Two
tokens may be there or not: a comma in front of the arguments of a call or the parameters of a
function, and the word before an empty second block of a conditional.

* `Node.pieces`: the tokens of a tree, those that may be left out marked.
* `Chosen`: some of the tokens that may be left out are kept.
* `SpellsProgram.chosen`: lexemes that spell a program have such tokens.
* `Node.parse?_spelled`: the text is spelled so, and so is every other text with the same tree.
-/

namespace PlcLang

open Grammar

/-! ## Pieces -/

namespace Grammar

/-- A token of a tree. -/
inductive Piece where
  /-- A token that is there. -/
  | token (t : Token)
  /-- A token that may be left out. -/
  | perhaps (t : Token)

/-- A mark that is there. -/
def Piece.mark (s : String) : Piece := .token (.mark s)

/-- A word that is there. -/
def Piece.word (s : String) : Piece := .token (.word s)

/-- The tokens that remain after some that may be left out are left out. -/
inductive Chosen : List Piece → List Token → Prop
  | nil : Chosen [] []
  | token {t ps ts} : Chosen ps ts → Chosen (.token t :: ps) (t :: ts)
  | kept {t ps ts} : Chosen ps ts → Chosen (.perhaps t :: ps) (t :: ts)
  | dropped {t ps ts} : Chosen ps ts → Chosen (.perhaps t :: ps) ts

/-- Items with commas between them. -/
def separatedPieces : List (List Piece) → List Piece
  | [] => []
  | item :: items => item ++ items.flatMap (.mark "," :: ·)

/-- The same; in front of the first item there may be one more comma. -/
def listedPieces : List (List Piece) → List Piece
  | [] => []
  | items => .perhaps (.mark ",") :: separatedPieces items

end Grammar

namespace Node

mutual

/-- The tokens of a tree in the order of the grammar, with those that may be left out. -/
def pieces : Node → List Piece
  | missing | bare _ => []
  | literal v _ _ => v.tokens.map .token
  | group e _ _ => .mark "(" :: e.pieces ++ [.mark ")"]
  | binary op l r _ _ => l.pieces ++ .mark op.symbol :: r.pieces
  | access name offset _ _ _ =>
    name.tokens.map .token ++
      if offset.isPresent then .mark "[" :: offset.pieces ++ [.mark "]"] else []
  | call name es _ _ _ =>
    name.tokens.map .token ++ .mark "(" :: listedPieces (pieceLists es) ++ [.mark ")"]
  | listLiteral es _ _ => .mark "[" :: separatedPieces (pieceLists es) ++ [.mark "]"]
  | expressionStatement e _ => e.pieces ++ [.mark ";"]
  | declaration name typeName value _ _ =>
    .word "LET" :: name.tokens.map .token ++ typeName.typeTokens.map .token ++
      (if value.isPresent then .mark "=" :: value.pieces else []) ++ [.mark ";"]
  | assignment l r _ => l.pieces ++ .mark "=" :: r.pieces ++ [.mark ";"]
  | conditional c ts es _ =>
    .word "IF" :: c.pieces ++ .word "DO" :: (pieceLists ts).flatten ++
      (if es.isEmpty then [.perhaps (.word "ELSE")]
        else .word "ELSE" :: (pieceLists es).flatten) ++ [.word "END"]
  | case value ss _ =>
    (if value.isPresent then .word "CASE" :: value.pieces ++ [.mark ":"] else [.word "DEFAULT"]) ++
      (pieceLists ss).flatten
  | switch c cs _ => .word "SWITCH" :: c.pieces ++ (pieceLists cs).flatten ++ [.word "END"]
  | whileLoop c ss _ =>
    .word "WHILE" :: c.pieces ++ .word "DO" :: (pieceLists ss).flatten ++ [.word "END"]
  | returning e _ => .word "RETURN" :: e.pieces ++ [.mark ";"]
  | global name typeName mutable value _ _ =>
    .word (value.globalWord mutable) :: name.tokens.map .token ++ typeName.typeTokens.map .token ++
      (if value.isPresent then .mark "=" :: value.pieces else []) ++ [.mark ";"]
  | function name names types returnType ss _ _ =>
    .word "FUN" :: name.tokens.map .token ++
      .mark "(" :: listedPieces (names.zipWith
        (fun s t => (s.tokens ++ t.typeTokens).map .token) types) ++
      .mark ")" :: returnType.typeTokens.map .token ++ .word "DO" :: (pieceLists ss).flatten ++
        [.word "END"]
  | source gs fs => (pieceLists gs).flatten ++ (pieceLists fs).flatten

/-- The tokens of several trees, with those that may be left out. -/
def pieceLists : List Node → List (List Piece)
  | [] => []
  | n :: ns => n.pieces :: pieceLists ns

end

theorem pieceLists_eq_map (ns : List Node) : pieceLists ns = ns.map pieces := by
  induction ns with
  | nil => rfl
  | cons n ns ih => rw [pieceLists, ih, List.map_cons]

theorem globalWord_skeleton (n : Node) (mutable : Option Bool) :
    n.skeleton.globalWord mutable = n.globalWord mutable := by
  cases n <;> rfl

theorem isEmpty_skeletons (ns : List Node) : (skeletons ns).isEmpty = ns.isEmpty := by
  cases ns <;> rfl

mutual

/-- The tokens do not depend on places, types and bindings. -/
theorem pieces_skeleton : (n : Node) → n.skeleton.pieces = n.pieces
  | missing | bare _ | literal .. => rfl
  | group e _ _ => by simp only [skeleton, pieces, pieces_skeleton e]
  | binary _ l r _ _ => by simp only [skeleton, pieces, pieces_skeleton l, pieces_skeleton r]
  | access _ offset _ _ _ => by
    simp only [skeleton, pieces, isPresent_skeleton, pieces_skeleton offset]
  | call _ es _ _ _ => by simp only [skeleton, pieces, pieceLists_skeletons es]
  | listLiteral es _ _ => by simp only [skeleton, pieces, pieceLists_skeletons es]
  | expressionStatement e _ => by simp only [skeleton, pieces, pieces_skeleton e]
  | declaration _ _ value _ _ => by
    simp only [skeleton, pieces, isPresent_skeleton, pieces_skeleton value]
  | assignment l r _ => by simp only [skeleton, pieces, pieces_skeleton l, pieces_skeleton r]
  | conditional c ts es _ => by
    simp only [skeleton, pieces, isEmpty_skeletons, pieces_skeleton c, pieceLists_skeletons ts,
      pieceLists_skeletons es]
  | case value ss _ => by
    simp only [skeleton, pieces, isPresent_skeleton, pieces_skeleton value, pieceLists_skeletons ss]
  | switch c cs _ => by simp only [skeleton, pieces, pieces_skeleton c, pieceLists_skeletons cs]
  | whileLoop c ss _ => by simp only [skeleton, pieces, pieces_skeleton c, pieceLists_skeletons ss]
  | returning e _ => by simp only [skeleton, pieces, pieces_skeleton e]
  | global _ _ _ value _ _ => by
    simp only [skeleton, pieces, isPresent_skeleton, globalWord_skeleton, pieces_skeleton value]
  | function _ _ _ _ ss _ _ => by simp only [skeleton, pieces, pieceLists_skeletons ss]
  | source gs fs => by
    simp only [skeleton, pieces, pieceLists_skeletons gs, pieceLists_skeletons fs]

theorem pieceLists_skeletons : (ns : List Node) → pieceLists (skeletons ns) = pieceLists ns
  | [] => rfl
  | n :: ns => by simp only [skeletons, pieceLists, pieces_skeleton n, pieceLists_skeletons ns]

end

end Node

/-! ## Choices -/

namespace Grammar

namespace Chosen

variable {ps qs : List Piece} {ts us : List Token}

theorem append (h : Chosen ps ts) (k : Chosen qs us) : Chosen (ps ++ qs) (ts ++ us) := by
  induction h with
  | nil => exact k
  | token _ ih => exact .token ih
  | kept _ ih => exact .kept ih
  | dropped _ ih => exact .dropped ih

/-- Where nothing may be left out there is no choice. -/
theorem tokens (ts : List Token) : Chosen (ts.map .token) ts := by
  induction ts with
  | nil => exact .nil
  | cons t ts ih => exact .token ih

theorem mark (s : String) : Chosen [.mark s] [.mark s] := .token .nil

theorem word (s : String) : Chosen [.word s] [.word s] := .token .nil

section Sequences

variable {α : Type} {f : α → List Piece} {g : α → List Lexeme} {as : List α} {ls : List Lexeme}

theorem flatMap (h : ∀ a ∈ as, Chosen (f a) ((g a).map Lexeme.token)) :
    Chosen (as.map f).flatten ((as.flatMap g).map Lexeme.token) := by
  induction as with
  | nil => exact .nil
  | cons a as ih =>
    obtain ⟨ha, has⟩ := List.forall_mem_cons.mp h
    rw [List.flatMap_cons, List.map_append]
    exact ha.append (ih has)

theorem afterCommas (hls : AfterCommas (as.map g) ls)
    (h : ∀ a ∈ as, Chosen (f a) ((g a).map Lexeme.token)) :
    Chosen ((as.map f).flatMap (.mark "," :: ·)) (ls.map Lexeme.token) := by
  induction as generalizing ls with
  | nil =>
    cases hls
    exact .nil
  | cons a as ih =>
    obtain ⟨ha, has⟩ := List.forall_mem_cons.mp h
    cases hls with
    | cons p hrest =>
      rw [List.map_append]
      exact ((mark ",").append ha).append (ih hrest has)

/-- The comma in front of the first item is the one that may be left out. -/
theorem listed (hls : PerhapsSeparated (as.map g) ls)
    (h : ∀ a ∈ as, Chosen (f a) ((g a).map Lexeme.token)) :
    Chosen (listedPieces (as.map f)) (ls.map Lexeme.token) := by
  generalize hitems : as.map g = items at hls
  cases as with
  | nil =>
    subst hitems
    cases hls with
    | leading hls =>
      cases hls
      exact .nil
  | cons a as =>
    obtain ⟨ha, has⟩ := List.forall_mem_cons.mp h
    subst hitems
    cases hls with
    | leading hls =>
      cases hls with
      | cons p hrest =>
        rw [List.map_append]
        exact .kept (ha.append (afterCommas hrest has))
    | plain hrest =>
      rw [List.map_append]
      exact .dropped (ha.append (afterCommas hrest has))

end Sequences

end Chosen

/-! ## Spelled trees -/

variable {N : String → Prop}

theorem tokens_of_value? {t : Token} {v : Value} (h : t.value? = some v) : v.tokens = [t] := by
  unfold Token.value? at h
  split at h
  case h_6 c => 
    cases h
    simp [Value.tokens]
  all_goals
    cases h
    try rfl

theorem chosen_joined {p : Place} {first : Node} {ts : List Token} {os : List Operation}
    (hfirst : Chosen first.pieces ts)
    (hos : ∀ o ∈ os, Chosen o.operand.1.pieces (o.operand.2.map Lexeme.token)) :
    Chosen (joined p first (os.map fun o => (o.operator, o.operand.1))).pieces
      (ts ++ (os.flatMap Operation.lexemes).map Lexeme.token) := by
  induction os generalizing first ts with
  | nil =>
    rw [List.flatMap_nil, List.map_nil, List.map_nil, List.append_nil]
    exact hfirst
  | cons o os ih =>
    obtain ⟨ho, hos⟩ := List.forall_mem_cons.mp hos
    have hbinary : Chosen (Node.binary o.operator first o.operand.1 none p).pieces
        (ts ++ o.lexemes.map Lexeme.token) := hfirst.append ((Chosen.mark o.operator.symbol).append ho)
    rw [List.flatMap_cons, List.map_append, ← List.append_assoc]
    exact ih hbinary hos

theorem Spells.chosen {l : Option Level} {e : Node} {ls : List Lexeme} (h : Spells N l e ls) :
    Chosen e.pieces (ls.map Lexeme.token) := by
  induction h with
  | @literal x v hx =>
    rw [Node.pieces, tokens_of_value? hx]
    exact .tokens [x.token]
  | @group e ls _ _ _ ih =>
    rw [Node.pieces, List.map_append]
    exact ((Chosen.mark "(").append ih).append (.mark ")")
  | @reference s => exact .tokens [Token.name s]
  | @item s e ls _ _ _ _ he ih =>
    rw [Node.pieces, if_pos he.isExpression.1.isPresent, List.map_append]
    exact (((Chosen.tokens [Token.name s]).append (.mark "[")).append ih).append (.mark "]")
  | @call s ls _ _ _ as _ _ hls ih =>
    rw [Node.pieces, Node.pieceLists_eq_map, List.map_map, List.map_append]
    exact (((Chosen.tokens [Token.name s]).append (.mark "(")).append (.listed hls ih)).append
      (.mark ")")
  | chain os _ _ _ hfirst hoperands =>
    rw [List.map_append]
    exact chosen_joined hfirst hoperands

theorem SpellsType.chosen {t : Name} {ls : List Lexeme} (h : SpellsType N t ls) :
    Chosen (t.typeTokens.map .token) (ls.map Lexeme.token) := by
  cases h with
  | absent => exact .nil
  | present => exact .tokens _

theorem SpellsValue.chosen {value : Node} {ls : List Lexeme} (h : SpellsValue N value ls) :
    Chosen (if value.isPresent then .mark "=" :: value.pieces else []) (ls.map Lexeme.token) := by
  cases h with
  | absent => exact .nil
  | present he =>
    rw [if_pos he.isExpression.1.isPresent]
    exact (Chosen.mark "=").append he.chosen

theorem SpelledCase.chosen {k : SpelledCase} (hv : Spells N (some .logical) k.value.1 k.value.2)
    (hblock : ∀ s ∈ k.block, Chosen s.1.pieces (s.2.map Lexeme.token)) :
    Chosen k.node.pieces (k.lexemes.map Lexeme.token) := by
  rw [SpelledCase.node, Node.pieces, if_pos hv.isExpression.1.isPresent, SpelledCase.lexemes,
    Node.pieceLists_eq_map, List.map_map, List.map_append, List.append_assoc]
  exact ((Chosen.word "CASE").append hv.chosen).append ((Chosen.mark ":").append (.flatMap hblock))

theorem SpellsStatement.chosen {s : Node} {ls : List Lexeme} (h : SpellsStatement N s ls) :
    Chosen s.pieces (ls.map Lexeme.token) := by
  induction h with
  | @declaration s _ _ _ _ _ _ _ _ ht hv =>
    rw [Node.pieces, List.map_append, List.map_append]
    exact (((Chosen.tokens [.word "LET", .name s]).append ht.chosen).append hv.chosen).append
      (.mark ";")
  | switch ks default hc hvalues _ _ hblocks hdefault =>
    have hks : ∀ k ∈ ks, Chosen k.node.pieces (k.lexemes.map Lexeme.token) := fun k hk =>
      SpelledCase.chosen (hvalues k hk) (hblocks k hk)
    have hlast : Chosen (Node.case .missing (default.map Prod.fst) .unknown).pieces
        (.word "DEFAULT" :: (default.flatMap Prod.snd).map Lexeme.token) := by
      rw [Node.pieces, Node.pieceLists_eq_map, List.map_map]
      exact (Chosen.word "DEFAULT").append (.flatMap hdefault)
    have hcases := (Chosen.flatMap hks).append hlast
    rw [Node.pieces, Node.pieceLists_eq_map, List.map_append, List.map_map, List.map_singleton,
      List.flatten_concat, List.map_append, List.map_append, List.map_append,
      List.append_assoc (List.map _ _)]
    exact (((Chosen.word "SWITCH").append hc.chosen).append hcases).append (.word "END")
  | @conditional _ _ els _ _ _ ts es hc _ _ hels hts hes =>
    have helse : Chosen (if (es.map Prod.fst).isEmpty then [.perhaps (.word "ELSE")]
        else .word "ELSE" :: (Node.pieceLists (es.map Prod.fst)).flatten) (els.map Lexeme.token) := by
      rw [Node.pieceLists_eq_map, List.map_map]
      rcases hels with ⟨rfl, rfl⟩ | ⟨p', rfl⟩
      · exact .dropped .nil
      · cases es with
        | nil => exact .kept .nil
        | cons e es => exact (Chosen.word "ELSE").append (.flatMap hes)
    rw [Node.pieces, Node.pieceLists_eq_map (ts.map Prod.fst), List.map_map, List.map_append,
      List.map_append, List.map_append]
    exact ((((Chosen.word "IF").append hc.chosen).append
      ((Chosen.word "DO").append (.flatMap hts))).append helse).append (.word "END")
  | whileLoop ss hc _ hss =>
    rw [Node.pieces, Node.pieceLists_eq_map, List.map_map, List.map_append, List.map_append]
    exact (((Chosen.word "WHILE").append hc.chosen).append
      ((Chosen.word "DO").append (.flatMap hss))).append (.word "END")
  | returning he =>
    rw [Node.pieces, List.map_append]
    exact ((Chosen.word "RETURN").append he.chosen).append (.mark ";")
  | assignment he hv =>
    rw [Node.pieces, List.map_append, List.map_append]
    exact (he.chosen.append ((Chosen.mark "=").append hv.chosen)).append (.mark ";")
  | expressionStatement he =>
    rw [Node.pieces, List.map_append]
    exact he.chosen.append (.mark ";")

theorem SpellsGlobal.chosen {g : Node} {ls : List Lexeme} (h : SpellsGlobal N g ls) :
    Chosen g.pieces (ls.map Lexeme.token) := by
  cases h with
  | @list s t e ls els _ _ _ _ _ _ _ _ es _ _ hes hls =>
    obtain ⟨he, hes⟩ := List.forall_mem_cons.mp hes
    have hitems : Chosen (separatedPieces (((e, els) :: es).map (Node.pieces ∘ Prod.fst)))
        ((els ++ ls).map Lexeme.token) := by
      rw [List.map_append]
      exact he.chosen.append (.afterCommas hls fun a ha => (hes a ha).chosen)
    have hhead := Chosen.tokens [.word "LIST", .name s, .mark ":", .name t, .mark "=", .mark "["]
    have hlist := (hhead.append hitems).append (Chosen.tokens [.mark "]", .mark ";"])
    rw [Node.pieces, Node.pieces, Node.pieceLists_eq_map, List.map_map]
    simpa [Node.isPresent, Node.globalWord, Name.tokens, Name.typeTokens, Piece.mark, Piece.word]
      using hlist
  | @mutable s t value ls _ _ _ _ _ _ _ hv =>
    have hword : value.globalWord (some true) = "VAR" := hv.isOptional.globalWord_eq _
    rw [Node.pieces, hword, List.map_append]
    exact ((Chosen.tokens [.word "VAR", .name s, .mark ":", .name t]).append hv.chosen).append
      (.mark ";")
  | @immutable s t value ls _ _ _ _ _ _ _ _ hv =>
    have hword : value.globalWord (some false) = "VAL" := hv.isExpression.1.globalWord_eq _
    rw [Node.pieces, hword, if_pos hv.isExpression.1.isPresent, List.map_append]
    exact ((Chosen.tokens [.word "VAL", .name s, .mark ":", .name t]).append
      ((Chosen.mark "=").append hv.chosen)).append (.mark ";")

theorem SpellsFunction.chosen {f : Node} {ls : List Lexeme} (h : SpellsFunction N f ls) :
    Chosen f.pieces (ls.map Lexeme.token) := by
  cases h with
  | @function s returnName ls rls _ _ _ _ _ _ xs ss _ _ hls ht hss =>
    have hparameters : Chosen (listedPieces (xs.map fun x =>
        [Token.name x.name, .mark ":", .name x.typeName].map .token)) (ls.map Lexeme.token) :=
      .listed hls fun x _ => .tokens _
    have hzip : (xs.map fun x => some x.name).zipWith
        (fun s t => (Name.tokens s ++ Name.typeTokens t).map Piece.token)
          (xs.map fun x => some x.typeName) =
        xs.map fun x => [Token.name x.name, .mark ":", .name x.typeName].map .token := by
      rw [List.zipWith_map, List.zipWith_self]
      rfl
    have hhead := ((Chosen.tokens [.word "FUN", .name s, .mark "("]).append hparameters).append
      ((Chosen.mark ")").append ht.chosen)
    have hblock := (Chosen.word "DO").append (.flatMap fun x hx => (hss x hx).chosen)
    rw [Node.pieces, hzip, Node.pieceLists_eq_map, List.map_map, List.map_append, List.map_append,
      List.map_append]
    exact (hhead.append hblock).append (.word "END")

/-- **Lexemes that spell a program are its tokens, some that may be left out left out.** -/
theorem SpellsProgram.chosen {t : Node} {ls : List Lexeme} (h : SpellsProgram N t ls) :
    Chosen t.pieces (ls.map Lexeme.token) := by
  cases h with
  | source gs fs hgs hfs =>
    rw [Node.pieces, Node.pieceLists_eq_map, Node.pieceLists_eq_map, List.map_map, List.map_map,
      List.map_append]
    exact (Chosen.flatMap fun g hg => (hgs g hg).chosen).append
      (.flatMap fun f hf => (hfs f hf).chosen)

end Grammar

namespace Node

variable {N : String → Prop} {t t' : Node}

theorem pieces_eq_of_skeleton_eq (h : t'.skeleton = t.skeleton) : t'.pieces = t.pieces := by
  rw [← pieces_skeleton t', h, pieces_skeleton t]

/-- **The parser drops nothing and invents nothing.** A text that is parsed consists of blanks and of
lexemes that spell its tree, which are the tokens of the tree up to those that may be left out. Every
other text with this tree consists of the same tokens, up to this choice and to what is written in
quotes. -/
theorem parse?_spelled {text : String} (h : parse? text = some t) :
    (∃ ls, SpellsProgram IsIdentifier t ls ∧ Chosen t.pieces (ls.map Lexeme.token) ∧
      Spaced (ls.map Lexeme.token) text.toList) ∧
    ∀ text' t', parse? text' = some t' → t'.skeleton = t.skeleton →
      ∃ ts, Chosen t.pieces ts ∧ Spaced ts text'.toList := by
  have hspelled {text t} (h : parse? text = some t) :
      ∃ ls, SpellsProgram IsIdentifier t ls ∧ Chosen t.pieces (ls.map Lexeme.token) ∧
        Spaced (ls.map Lexeme.token) text.toList := by
    obtain ⟨ls, rest, hreads, hrest, hspells⟩ := spells_of_ofGlyphs (parse?_eq_some_iff.mp h)
    exact ⟨ls, hspells, hspells.chosen, map_char_locate text ▸ hreads.spaced hrest⟩
  refine ⟨hspelled h, fun text' t' h' hskeleton => ?_⟩
  obtain ⟨ls, -, hchosen, hspaced⟩ := hspelled h'
  exact ⟨_, pieces_eq_of_skeleton_eq hskeleton ▸ hchosen, hspaced⟩

/-- A program with superfluous commas, an empty second block and an escape. -/
def spelledFreely : String := "FUN main(,x:T) DO IF x DO ELSE END f(,\"\\t\"); END"

/-- The same program without them. -/
def spelledPlainly : String := "FUN main(x: T) DO IF x DO END f(\"\t\"); END"

theorem parse?_spelled_freely :
    ∃ t t', parse? spelledFreely = some t ∧ parse? spelledPlainly = some t' ∧
      t'.skeleton = t.skeleton ∧
      (∃ ls, SpellsProgram IsIdentifier t ls ∧ Chosen t.pieces (ls.map Lexeme.token) ∧
        Spaced (ls.map Lexeme.token) spelledFreely.toList) ∧
      ∃ ts, Chosen t.pieces ts ∧ Spaced ts spelledPlainly.toList := by
  have hsome : (parse? spelledFreely).isSome = true := by decide +kernel
  have hsame : (parse? spelledFreely).map skeleton = (parse? spelledPlainly).map skeleton := by cbv
  obtain ⟨t, ht⟩ := Option.isSome_iff_exists.mp hsome
  rw [ht, Option.map_some] at hsame
  obtain ⟨t', ht', hskeleton⟩ := Option.map_eq_some_iff.mp hsame.symm
  obtain ⟨hspelled, hothers⟩ := parse?_spelled ht
  exact ⟨t, t', ht, ht', hskeleton, hspelled, hothers _ _ ht' hskeleton⟩

end Node

end PlcLang
