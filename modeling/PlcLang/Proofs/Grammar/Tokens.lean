import PlcLang.Proofs.Grammar.Spelling

/-!
# The tokens of a tree

* `Node.tokens`: the tokens of a tree in the order of the grammar.
* `Node.skeleton`: a tree without its places and bindings.
* `Node.IsProgram.exists_spells`: lexemes with the tokens of a program spell a tree with the same
  skeleton.
-/

namespace PlcLang

open Grammar

/-! ## Tokens -/

/-- The token of a literal. -/
def Value.tokens : Value → List Token
  | .nil => [.word "NIL"]
  | .boolean b => [.word (if b then "TRUE" else "FALSE")]
  | .integer i => [.integer i]
  | .decimal d => [.decimal d]
  | .character s => s.toList.map .character
  | .string s => [.string s]
  | _ => []

/-- The token of a name. -/
def Name.tokens (name : Name) : List Token := name.toList.map .name

/-- A colon and the name of a type, if there is one. -/
def Name.typeTokens : Name → List Token
  | some t => [.mark ":", .name t]
  | none => []

/-- Items with commas between them. -/
def Grammar.separatedTokens : List (List Token) → List Token
  | [] => []
  | item :: items => item ++ items.flatMap (.mark "," :: ·)

/-- The word that begins a global. -/
def Node.globalWord (mutable : Option Bool) : Node → String
  | listLiteral .. => "LIST"
  | _ => if mutable = some false then "VAL" else "VAR"

namespace Node

mutual

/-- The tokens of a tree, in the order of the grammar. -/
def tokens : Node → List Token
  | missing | bare _ => []
  | literal v _ _ => v.tokens
  | group e _ _ => .mark "(" :: e.tokens ++ [.mark ")"]
  | binary op l r _ _ => l.tokens ++ .mark op.symbol :: r.tokens
  | access name offset _ _ _ =>
    name.tokens ++ if offset.isPresent then .mark "[" :: offset.tokens ++ [.mark "]"] else []
  | call name es _ _ _ => name.tokens ++ .mark "(" :: separatedTokens (tokenLists es) ++ [.mark ")"]
  | listLiteral es _ _ => .mark "[" :: separatedTokens (tokenLists es) ++ [.mark "]"]
  | expressionStatement e _ => e.tokens ++ [.mark ";"]
  | declaration name typeName value _ _ =>
    .word "LET" :: name.tokens ++ typeName.typeTokens ++
      (if value.isPresent then .mark "=" :: value.tokens else []) ++ [.mark ";"]
  | assignment l r _ => l.tokens ++ .mark "=" :: r.tokens ++ [.mark ";"]
  | conditional c ts es _ =>
    .word "IF" :: c.tokens ++ .word "DO" :: (tokenLists ts).flatten ++
      (if es.isEmpty then [] else .word "ELSE" :: (tokenLists es).flatten) ++ [.word "END"]
  | case value ss _ =>
    (if value.isPresent then .word "CASE" :: value.tokens ++ [.mark ":"] else [.word "DEFAULT"]) ++
      (tokenLists ss).flatten
  | switch c cs _ => .word "SWITCH" :: c.tokens ++ (tokenLists cs).flatten ++ [.word "END"]
  | whileLoop c ss _ =>
    .word "WHILE" :: c.tokens ++ .word "DO" :: (tokenLists ss).flatten ++ [.word "END"]
  | returning e _ => .word "RETURN" :: e.tokens ++ [.mark ";"]
  | global name typeName mutable value _ _ =>
    .word (value.globalWord mutable) :: name.tokens ++ typeName.typeTokens ++
      (if value.isPresent then .mark "=" :: value.tokens else []) ++ [.mark ";"]
  | function name names types returnType ss _ _ =>
    .word "FUN" :: name.tokens ++
      .mark "(" :: separatedTokens (names.zipWith (fun s t => s.tokens ++ t.typeTokens) types) ++
      .mark ")" :: returnType.typeTokens ++ .word "DO" :: (tokenLists ss).flatten ++ [.word "END"]
  | source gs fs => (tokenLists gs).flatten ++ (tokenLists fs).flatten

/-- The tokens of several trees. -/
def tokenLists : List Node → List (List Token)
  | [] => []
  | n :: ns => n.tokens :: tokenLists ns

end

theorem tokenLists_eq_map (ns : List Node) : tokenLists ns = ns.map tokens := by
  induction ns with
  | nil => rfl
  | cons n ns ih => rw [tokenLists, ih, List.map_cons]

mutual

/-- The tree without its places, its types and its bindings. -/
def skeleton : Node → Node
  | missing => missing
  | bare k => bare k
  | literal v _ _ => literal v none .unknown
  | group e _ _ => group e.skeleton none .unknown
  | binary op l r _ _ => binary op l.skeleton r.skeleton none .unknown
  | access name offset _ _ _ => access name offset.skeleton none none .unknown
  | call name es _ _ _ => call name (skeletons es) none none .unknown
  | listLiteral es _ _ => listLiteral (skeletons es) none .unknown
  | expressionStatement e _ => expressionStatement e.skeleton .unknown
  | declaration name typeName value _ _ => declaration name typeName value.skeleton none .unknown
  | assignment l r _ => assignment l.skeleton r.skeleton .unknown
  | conditional c ts es _ => conditional c.skeleton (skeletons ts) (skeletons es) .unknown
  | case value ss _ => case value.skeleton (skeletons ss) .unknown
  | switch c cs _ => switch c.skeleton (skeletons cs) .unknown
  | whileLoop c ss _ => whileLoop c.skeleton (skeletons ss) .unknown
  | returning e _ => returning e.skeleton .unknown
  | global name typeName mutable value _ _ =>
    global name typeName mutable value.skeleton none .unknown
  | function name names types returnType ss _ _ =>
    function name names types returnType (skeletons ss) none .unknown
  | source gs fs => source (skeletons gs) (skeletons fs)

/-- Several trees without their places, types and bindings. -/
def skeletons : List Node → List Node
  | [] => []
  | n :: ns => n.skeleton :: skeletons ns

end

theorem skeletons_eq_map (ns : List Node) : skeletons ns = ns.map skeleton := by
  induction ns with
  | nil => rfl
  | cons n ns ih => rw [skeletons, ih, List.map_cons]

theorem isPresent_skeleton (n : Node) : n.skeleton.isPresent = n.isPresent := by
  cases n <;> rfl

theorem skeletons_append (ms ns : List Node) :
    skeletons (ms ++ ns) = skeletons ms ++ skeletons ns := by
  simp only [skeletons_eq_map, List.map_append]

end Node

/-! ## Lexemes with given tokens -/

namespace Grammar

/-- Lexemes with the tokens of `n` are related to a tree that has the same skeleton. -/
def Respelled (Q : Node → List Lexeme → Prop) (n : Node) : Prop :=
  ∀ ⦃ls : List Lexeme⦄, ls.map Lexeme.token = n.tokens → ∃ n', n'.skeleton = n.skeleton ∧ Q n' ls

theorem exists_of_map_cons {ls : List Lexeme} {t : Token} {ts : List Token}
    (h : ls.map Lexeme.token = t :: ts) :
    ∃ p ls', ls = ⟨t, p⟩ :: ls' ∧ ls'.map Lexeme.token = ts := by
  obtain ⟨⟨t, p⟩, ls', rfl, rfl, hls⟩ := List.map_eq_cons_iff.mp h
  exact ⟨p, ls', rfl, hls⟩

theorem exists_of_map_append {ls : List Lexeme} {ts us : List Token}
    (h : ls.map Lexeme.token = ts ++ us) :
    ∃ ls₁ ls₂, ls = ls₁ ++ ls₂ ∧ ls₁.map Lexeme.token = ts ∧ ls₂.map Lexeme.token = us :=
  List.map_eq_append_iff.mp h

theorem exists_of_map_singleton {ls : List Lexeme} {t : Token} (h : ls.map Lexeme.token = [t]) :
    ∃ p, ls = [⟨t, p⟩] := by
  obtain ⟨p, ls', rfl, hnil⟩ := exists_of_map_cons h
  exact ⟨p, by rw [List.map_eq_nil_iff.mp hnil]⟩

theorem exists_of_map_concat {ls : List Lexeme} {ts : List Token} {t : Token}
    (h : ls.map Lexeme.token = ts ++ [t]) :
    ∃ ls' p, ls = ls' ++ [⟨t, p⟩] ∧ ls'.map Lexeme.token = ts := by
  obtain ⟨ls', ls₂, rfl, hls, hend⟩ := exists_of_map_append h
  obtain ⟨p, rfl⟩ := exists_of_map_singleton hend
  exact ⟨ls', p, rfl, hls⟩

section Sequences

variable {tss : List (List Token)} {ls : List Lexeme}

theorem exists_flatten (h : ls.map Lexeme.token = tss.flatten) :
    ∃ items : List (List Lexeme), items.map (List.map Lexeme.token) = tss ∧ ls = items.flatten := by
  induction tss generalizing ls with
  | nil => exact ⟨[], rfl, List.map_eq_nil_iff.mp h⟩
  | cons ts tss ih =>
    obtain ⟨item, ls', rfl, hitem, hls⟩ := exists_of_map_append h
    obtain ⟨items, hitems, rfl⟩ := ih hls
    exact ⟨item :: items, by rw [List.map_cons, hitem, hitems], rfl⟩

theorem exists_afterCommas (h : ls.map Lexeme.token = tss.flatMap (.mark "," :: ·)) :
    ∃ items, items.map (List.map Lexeme.token) = tss ∧ AfterCommas items ls := by
  induction tss generalizing ls with
  | nil =>
    obtain rfl := List.map_eq_nil_iff.mp h
    exact ⟨[], rfl, .nil⟩
  | cons ts tss ih =>
    obtain ⟨ls₁, ls₂, rfl, hfirst, hls⟩ := exists_of_map_append h
    have hfirst : ls₁.map Lexeme.token = .mark "," :: ts := hfirst
    obtain ⟨p, item, rfl, hitem⟩ := exists_of_map_cons hfirst
    obtain ⟨items, hitems, hcommas⟩ := ih hls
    exact ⟨item :: items, by rw [List.map_cons, hitem, hitems], .cons p hcommas⟩

theorem exists_separated (h : ls.map Lexeme.token = separatedTokens tss) :
    ∃ items, items.map (List.map Lexeme.token) = tss ∧ PerhapsSeparated items ls := by
  cases tss with
  | nil =>
    obtain rfl := List.map_eq_nil_iff.mp h
    exact ⟨[], rfl, .leading .nil⟩
  | cons ts tss =>
    obtain ⟨item, ls', rfl, hitem, hls⟩ := exists_of_map_append h
    obtain ⟨items, hitems, hcommas⟩ := exists_afterCommas hls
    exact ⟨item :: items, by rw [List.map_cons, hitem, hitems], .plain hcommas⟩

/-- Items with the tokens of given trees are spelled one by one. -/
theorem exists_spelled {Q : Node → List Lexeme → Prop} {ns : List Node}
    (h : ∀ n ∈ ns, Respelled Q n) {items : List (List Lexeme)}
    (hitems : items.map (List.map Lexeme.token) = Node.tokenLists ns) :
    ∃ bs : List Spelled, bs.map Prod.snd = items ∧
      Node.skeletons (bs.map Prod.fst) = Node.skeletons ns ∧ ∀ b ∈ bs, Q b.1 b.2 := by
  induction ns generalizing items with
  | nil =>
    obtain rfl := List.map_eq_nil_iff.mp hitems
    exact ⟨[], rfl, rfl, nofun⟩
  | cons n ns ih =>
    obtain ⟨hn, hns⟩ := List.forall_mem_cons.mp h
    obtain ⟨item, items, rfl, hitem, hrest⟩ := List.map_eq_cons_iff.mp hitems
    obtain ⟨n', hskeleton, hQ⟩ := hn hitem
    obtain ⟨bs, rfl, hskeletons, hall⟩ := ih hns hrest
    refine ⟨(n', item) :: bs, rfl, ?_, List.forall_mem_cons.mpr ⟨hQ, hall⟩⟩
    rw [List.map_cons, Node.skeletons, Node.skeletons, hskeleton, hskeletons]

theorem exists_block {Q : Node → List Lexeme → Prop} {ns : List Node}
    (h : ∀ n ∈ ns, Respelled Q n) (hls : ls.map Lexeme.token = (Node.tokenLists ns).flatten) :
    ∃ bs : List Spelled, ls = bs.flatMap Prod.snd ∧
      Node.skeletons (bs.map Prod.fst) = Node.skeletons ns ∧ ∀ b ∈ bs, Q b.1 b.2 := by
  obtain ⟨items, hitems, rfl⟩ := exists_flatten hls
  obtain ⟨bs, rfl, hbs⟩ := exists_spelled h hitems
  exact ⟨bs, rfl, hbs⟩

end Sequences

variable {N : String → Prop}

/-! ## Expressions -/

theorem Spells.loosen {l : Level} {e : Node} {ls : List Lexeme} (h : Spells N l.tighter? e ls) :
    Spells N (some l) e ls := by
  have hchain := Spells.chain (l := l) [] h nofun nofun
  rw [List.flatMap_nil, List.append_nil] at hchain
  exact hchain

theorem eq_of_floor_eq {l m : Option Level} (h : floor l = floor m) : l = m := by
  rcases l with _ | _ | _ | _ | _ <;> rcases m with _ | _ | _ | _ | _ <;> first | rfl | cases h

theorem floor_le (l : Option Level) : floor l ≤ 4 := by
  rcases l with _ | _ | _ | _ | _ <;> decide

theorem le_floor {n : Nat} {l : Option Level} (h : ∀ m, l = some m → n ≤ m.rank) (hn : n ≤ 4) :
    n ≤ floor l := by
  cases l with
  | none => exact hn
  | some m => exact h m rfl

/-- An expression of a tighter level is an expression of a looser one. -/
theorem Spells.widen {l m : Option Level} {e : Node} {ls : List Lexeme} (h : Spells N m e ls)
    (hle : floor l ≤ floor m) : Spells N l e ls := by
  -- by the number of levels between them
  induction hk : floor m - floor l generalizing l with
  | zero => exact eq_of_floor_eq (show floor l = floor m by omega) ▸ h
  | succ k ih =>
    cases l with
    | none =>
      have hbound := floor_le m
      have hfloor : floor none = 4 := rfl
      omega
    | some l =>
      have htighter := floor_tighter l
      have hfloor : floor (some l) = l.rank := rfl
      exact (ih (by omega) (by omega)).loosen

/-- A chain goes on with one more operation. -/
theorem Spells.extend {op : Operator} {l : Level} {left right : Node} {ls₁ ls₂ : List Lexeme}
    {p : Place} (hop : op.level? = some l) (hl : Spells N (some l) left ls₁)
    (hr : Spells N l.tighter? right ls₂) :
    Spells N (some l) (.binary op left right none left.place)
      (ls₁ ++ ⟨.mark op.symbol, p⟩ :: ls₂) := by
  cases hl with
  | @chain _ first ls os hfirst hlevel hoperand =>
    have hchain := Spells.chain (l := l) (os ++ [⟨op, p, right, ls₂⟩]) hfirst
      (List.forall_mem_append.mpr ⟨hlevel, List.forall_mem_singleton.mpr hop⟩)
      (List.forall_mem_append.mpr ⟨hoperand, List.forall_mem_singleton.mpr hr⟩)
    rw [place_joined rfl]
    simpa [joined, Operation.lexemes] using hchain

theorem exists_token_of_isLiteral {v : Value} (h : v.IsLiteral) :
    ∃ t, v.tokens = [t] ∧ t.value? = some v := by
  cases h with
  | nil => exact ⟨_, rfl, rfl⟩
  | boolean b => cases b <;> exact ⟨_, rfl, rfl⟩
  | integer i => exact ⟨_, rfl, rfl⟩
  | decimal => exact ⟨_, rfl, rfl⟩
  | character c => exact ⟨.character c, by simp [Value.tokens], rfl⟩
  | string s => exact ⟨_, rfl, rfl⟩

end Grammar

namespace Node

variable {N : String → Prop} {ls : List Lexeme}

theorem IsExpression.respelled {e : Node} (h : e.IsExpression N) :
    Respelled (Spells N e.level?) e := by
  induction h with
  | @literal v _ _ hv =>
    intro ls hls
    obtain ⟨t, ht, hvalue⟩ := exists_token_of_isLiteral hv
    rw [tokens, ht] at hls
    obtain ⟨p, rfl⟩ := exists_of_map_singleton hls
    exact ⟨.literal v none p, rfl, .literal (x := ⟨t, p⟩) hvalue hv⟩
  | group _ ih =>
    intro ls hls
    obtain ⟨ls₁, q, rfl, hopen⟩ := exists_of_map_concat hls
    obtain ⟨p, els, rfl, he⟩ := exists_of_map_cons hopen
    obtain ⟨e', hskeleton, hspells⟩ := ih he
    refine ⟨.group e' none p, ?_, .group (hspells.widen (Nat.zero_le _))⟩
    rw [skeleton, skeleton, hskeleton]
  | @binary op left right _ _ l hop _ hleft _ hright ihl ihr =>
    intro ls hls
    obtain ⟨lls, ls', rfl, hl, hrest⟩ := exists_of_map_append hls
    obtain ⟨p, rls, rfl, hr⟩ := exists_of_map_cons hrest
    obtain ⟨left', hskeleton, hspells⟩ := ihl hl
    obtain ⟨right', hskeleton', hspells'⟩ := ihr hr
    have hfloor : floor (some l) ≤ floor left.level? := le_floor hleft (floor_le (some l))
    have hfloor' : floor l.tighter? ≤ floor right.level? :=
      le_floor (fun m hm => Nat.le_trans (Nat.le_of_eq (floor_tighter l)) (hright m hm)) (floor_le _)
    have hspells := Spells.extend (p := p) hop (hspells.widen hfloor) (hspells'.widen hfloor')
    refine ⟨.binary op left' right' none left'.place, ?_, ?_⟩
    · rw [skeleton, skeleton, hskeleton, hskeleton']
    · rw [level?, hop]
      exact hspells
  | @reference s _ _ _ hs =>
    intro ls hls
    obtain ⟨p, rfl⟩ := exists_of_map_singleton hls
    exact ⟨.access (some s) .missing none none p, rfl, .reference hs⟩
  | @item s offset _ _ _ hs he ih =>
    intro ls hls
    rw [tokens, if_pos he.isPresent] at hls
    change ls.map Lexeme.token = (.name s :: .mark "[" :: offset.tokens) ++ [.mark "]"] at hls
    obtain ⟨ls₁, r, rfl, hopen⟩ := exists_of_map_concat hls
    obtain ⟨p, ls', rfl, hrest⟩ := exists_of_map_cons hopen
    obtain ⟨q, els, rfl, he⟩ := exists_of_map_cons hrest
    obtain ⟨e', hskeleton, hspells⟩ := ih he
    refine ⟨.access (some s) e' none none p, ?_, .item hs (hspells.widen (Nat.zero_le _))⟩
    rw [skeleton, skeleton, hskeleton]
  | @call s es _ _ _ hs _ ih =>
    intro ls hls
    change ls.map Lexeme.token =
      (.name s :: .mark "(" :: separatedTokens (tokenLists es)) ++ [.mark ")"] at hls
    obtain ⟨ls₁, r, rfl, hopen⟩ := exists_of_map_concat hls
    obtain ⟨p, ls', rfl, hrest⟩ := exists_of_map_cons hopen
    obtain ⟨q, els, rfl, hes⟩ := exists_of_map_cons hrest
    have hall : ∀ e ∈ es, Respelled (Spells N (some .logical)) e := fun e he ls hls =>
      (ih e he hls).imp fun _ h => ⟨h.1, h.2.widen (Nat.zero_le _)⟩
    obtain ⟨items, hitems, hseparated⟩ := exists_separated hes
    obtain ⟨as, rfl, hskeleton, has⟩ := exists_spelled hall hitems
    refine ⟨.call (some s) (as.map Prod.fst) none none p, ?_, .call as hs has hseparated⟩
    rw [skeleton, skeleton, hskeleton]

/-- Lexemes with the tokens of an expression spell one of the loosest level. -/
theorem IsExpression.respelled_logical {e : Node} (h : e.IsExpression N) :
    Respelled (Spells N (some .logical)) e := fun _ hls =>
  (h.respelled hls).imp fun _ h => ⟨h.1, h.2.widen (Nat.zero_le _)⟩

theorem exists_spellsType {typeName : Name} (h : ∀ t, typeName = some t → N t)
    (hls : ls.map Lexeme.token = typeName.typeTokens) : SpellsType N typeName ls := by
  cases typeName with
  | none =>
    obtain rfl := List.map_eq_nil_iff.mp hls
    exact .absent
  | some t =>
    obtain ⟨p, ls', rfl, hname⟩ := exists_of_map_cons hls
    obtain ⟨q, rfl⟩ := exists_of_map_singleton hname
    exact .present (h t rfl)

theorem IsOptional.exists_spellsValue {value : Node} (h : value.IsOptional N)
    (hls : ls.map Lexeme.token = if value.isPresent then .mark "=" :: value.tokens else []) :
    ∃ value', value'.skeleton = value.skeleton ∧ SpellsValue N value' ls := by
  rcases h with rfl | h
  · obtain rfl := List.map_eq_nil_iff.mp hls
    exact ⟨.missing, rfl, .absent⟩
  · rw [if_pos h.isPresent] at hls
    obtain ⟨p, els, rfl, he⟩ := exists_of_map_cons hls
    obtain ⟨e', hskeleton, hspells⟩ := h.respelled_logical he
    exact ⟨e', hskeleton, .present hspells⟩

/-! ## Statements -/

theorem respelled_arm {a : Arm} (ha : a.1.IsExpression N)
    (hss : ∀ s ∈ a.2.1, Respelled (SpellsStatement N) s) : Respelled (SpellsCase N) (ofArm a) := by
  intro ls hls
  rw [ofArm, tokens, if_pos ha.isPresent] at hls
  obtain ⟨ls₁, ls₂, rfl, hhead, hblock⟩ := exists_of_map_append hls
  obtain ⟨ls₁, q, rfl, hcase⟩ := exists_of_map_concat hhead
  obtain ⟨p, vls, rfl, hv⟩ := exists_of_map_cons hcase
  obtain ⟨v', hskeleton, hspells⟩ := ha.respelled_logical hv
  obtain ⟨bs, rfl, hskeletons, hbs⟩ := exists_block hss hblock
  refine ⟨.case v' (bs.map Prod.fst) p, ?_, ⟨p, (v', vls), q, bs⟩, ?_, hspells, hbs⟩
  · rw [ofArm, skeleton, skeleton, hskeleton, hskeletons]
  · rw [List.append_assoc]
    rfl

/-- What stands between the first block of a conditional and its end. -/
theorem exists_alternative {es : List Node} (h : ∀ e ∈ es, Respelled (SpellsStatement N) e)
    (hls : ls.map Lexeme.token =
      if es.isEmpty then [] else .word "ELSE" :: (tokenLists es).flatten) :
    ∃ ds : List Spelled, skeletons (ds.map Prod.fst) = skeletons es ∧
      (∀ d ∈ ds, SpellsStatement N d.1 d.2) ∧
        (ls = [] ∧ ds = [] ∨ ∃ p, ls = ⟨.word "ELSE", p⟩ :: ds.flatMap Prod.snd) := by
  cases es with
  | nil => exact ⟨[], rfl, nofun, .inl ⟨List.map_eq_nil_iff.mp hls, rfl⟩⟩
  | cons e es =>
    obtain ⟨p, ls', rfl, hes⟩ := exists_of_map_cons hls
    obtain ⟨ds, rfl, hskeletons, hds⟩ := exists_block h hes
    exact ⟨ds, hskeletons, hds, .inr ⟨p, rfl⟩⟩

theorem respelled_switch {c : Node} {arms : List Arm} {ss : List Node} {p q : Place}
    (hc : c.IsExpression N) (harms : ∀ a ∈ arms, Respelled (SpellsCase N) (ofArm a))
    (hss : ∀ s ∈ ss, Respelled (SpellsStatement N) s) :
    Respelled (SpellsStatement N) (.switch c (arms.map ofArm ++ [.case .missing ss q]) p) := by
  intro ls hls
  have hcases : (tokenLists (arms.map ofArm ++ [.case .missing ss q])).flatten =
      (tokenLists (arms.map ofArm)).flatten ++ .word "DEFAULT" :: (tokenLists ss).flatten := by
    simp [tokenLists_eq_map, tokens, Node.isPresent]
  rw [tokens, hcases, ← List.append_assoc] at hls
  obtain ⟨ls₁, r, rfl, hbody⟩ := exists_of_map_concat hls
  obtain ⟨ls₁, ls₃, rfl, hkeyed, hdefault⟩ := exists_of_map_append hbody
  obtain ⟨ls₁, kls, rfl, hhead, hks⟩ := exists_of_map_append hkeyed
  obtain ⟨p, cls, rfl, hc'⟩ := exists_of_map_cons hhead
  obtain ⟨q', dls, rfl, hss'⟩ := exists_of_map_cons hdefault
  obtain ⟨c', hskeleton, hspells⟩ := hc.respelled_logical hc'
  obtain ⟨bs, rfl, hskeletons, hbs⟩ := exists_block (List.forall_mem_map.mpr harms) hks
  obtain ⟨ks, rfl, hall⟩ := exists_eq_map hbs
  obtain ⟨ds, rfl, hskeletons', hds⟩ := exists_block hss hss'
  rw [List.flatMap_map]
  refine ⟨.switch c' (ks.map SpelledCase.node ++ [.case .missing (ds.map Prod.fst) q']) p, ?_,
    .switch ks ds hspells (fun k hk => (hall k hk).1) (fun k hk => (hall k hk).2) hds⟩
  rw [List.map_map] at hskeletons
  change skeletons (ks.map SpelledCase.node) = _ at hskeletons
  have hcases' : skeletons (ks.map SpelledCase.node ++ [.case .missing (ds.map Prod.fst) q']) =
      skeletons (arms.map ofArm ++ [.case .missing ss q]) := by
    simp only [skeletons_append, skeletons, skeleton, hskeletons, hskeletons']
  rw [skeleton, skeleton, hskeleton, hcases']

theorem IsStatement.respelled {s : Node} (h : s.IsStatement N) :
    Respelled (SpellsStatement N) s := by
  induction h with
  | expressionStatement he =>
    intro ls hls
    obtain ⟨els, p, rfl, he'⟩ := exists_of_map_concat hls
    obtain ⟨e', hskeleton, hspells⟩ := he.respelled_logical he'
    refine ⟨.expressionStatement e' e'.place, ?_, .expressionStatement hspells⟩
    rw [skeleton, skeleton, hskeleton]
  | @declaration s typeName value _ _ hs ht hv =>
    intro ls hls
    change ls.map Lexeme.token = ((.word "LET" :: .name s :: Name.typeTokens typeName) ++
      (if value.isPresent then .mark "=" :: value.tokens else [])) ++ [.mark ";"] at hls
    obtain ⟨ls₁, r, rfl, hbody⟩ := exists_of_map_concat hls
    obtain ⟨ls₁, vls, rfl, hhead, hvalue⟩ := exists_of_map_append hbody
    obtain ⟨p, ls₃, rfl, hrest⟩ := exists_of_map_cons hhead
    obtain ⟨q, tls, rfl, htype⟩ := exists_of_map_cons hrest
    obtain ⟨value', hskeleton, hspells⟩ := hv.exists_spellsValue hvalue
    refine ⟨.declaration (some s) typeName value' none p, ?_,
      .declaration hs (exists_spellsType ht htype) hspells⟩
    rw [skeleton, skeleton, hskeleton]
  | assignment hr hv =>
    intro ls hls
    obtain ⟨ls₁, q, rfl, hbody⟩ := exists_of_map_concat hls
    obtain ⟨rls, ls₁, rfl, hr', hvalue⟩ := exists_of_map_append hbody
    obtain ⟨p, vls, rfl, hv'⟩ := exists_of_map_cons hvalue
    obtain ⟨r', hskeleton, hspells⟩ := hr.respelled_logical hr'
    obtain ⟨v', hskeleton', hspells'⟩ := hv.respelled_logical hv'
    refine ⟨.assignment r' v' r'.place, ?_, .assignment hspells hspells'⟩
    rw [skeleton, skeleton, hskeleton, hskeleton']
  | @conditional c ts es _ hc _ _ ihts ihes =>
    intro ls hls
    obtain ⟨ls₁, r, rfl, hbody⟩ := exists_of_map_concat hls
    obtain ⟨ls₁, els, rfl, hthen, helse⟩ := exists_of_map_append hbody
    obtain ⟨ls₁, ls₃, rfl, hhead, hblock⟩ := exists_of_map_append hthen
    obtain ⟨p, cls, rfl, hc'⟩ := exists_of_map_cons hhead
    obtain ⟨q, tls, rfl, hts⟩ := exists_of_map_cons hblock
    obtain ⟨c', hskeleton, hspells⟩ := hc.respelled_logical hc'
    obtain ⟨bs, rfl, hskeletons, hbs⟩ := exists_block ihts hts
    obtain ⟨ds, hskeletons', hds, hels⟩ := exists_alternative ihes helse
    refine ⟨.conditional c' (bs.map Prod.fst) (ds.map Prod.fst) p, ?_,
      .conditional bs ds hspells hbs hds hels⟩
    rw [skeleton, skeleton, hskeleton, hskeletons, hskeletons']
  | switch arms hc hvalues _ _ iharms ihss =>
    exact respelled_switch hc (fun a ha => respelled_arm (hvalues a ha) (iharms a ha)) ihss
  | @whileLoop c ss _ hc _ ih =>
    intro ls hls
    obtain ⟨ls₁, r, rfl, hbody⟩ := exists_of_map_concat hls
    obtain ⟨ls₁, ls₃, rfl, hhead, hblock⟩ := exists_of_map_append hbody
    obtain ⟨p, cls, rfl, hc'⟩ := exists_of_map_cons hhead
    obtain ⟨q, bls, rfl, hss⟩ := exists_of_map_cons hblock
    obtain ⟨c', hskeleton, hspells⟩ := hc.respelled_logical hc'
    obtain ⟨bs, rfl, hskeletons, hbs⟩ := exists_block ih hss
    refine ⟨.whileLoop c' (bs.map Prod.fst) p, ?_, .whileLoop bs hspells hbs⟩
    rw [skeleton, skeleton, hskeleton, hskeletons]
  | returning he =>
    intro ls hls
    obtain ⟨ls₁, q, rfl, hbody⟩ := exists_of_map_concat hls
    obtain ⟨p, els, rfl, he'⟩ := exists_of_map_cons hbody
    obtain ⟨e', hskeleton, hspells⟩ := he.respelled_logical he'
    refine ⟨.returning e' p, ?_, .returning hspells⟩
    rw [skeleton, skeleton, hskeleton]

/-! ## Programs -/

/-- An expression does not look like a list, so its word tells whether the global is a constant. -/
theorem IsExpression.globalWord_eq {e : Node} (h : e.IsExpression N) (mutable : Option Bool) :
    e.globalWord mutable = if mutable = some false then "VAL" else "VAR" := by
  cases h <;> rfl

theorem IsOptional.globalWord_eq {e : Node} (h : e.IsOptional N) (mutable : Option Bool) :
    e.globalWord mutable = if mutable = some false then "VAL" else "VAR" := by
  rcases h with rfl | h
  · rfl
  · exact h.globalWord_eq mutable

theorem IsGlobal.respelled {g : Node} (h : g.IsGlobal N) : Respelled (SpellsGlobal N) g := by
  cases h with
  | @list s t e es _ _ _ _ hs ht hes =>
    intro ls hls
    change ls.map Lexeme.token = (((.word "LIST" :: .name s :: .mark ":" :: .name t ::
      .mark "=" :: .mark "[" :: e.tokens) ++ (tokenLists es).flatMap (.mark "," :: ·)) ++
        [.mark "]"]) ++ [.mark ";"] at hls
    obtain ⟨ls₁, q₇, rfl, hbody⟩ := exists_of_map_concat hls
    obtain ⟨ls₁, q₆, rfl, helements⟩ := exists_of_map_concat hbody
    obtain ⟨ls₁, cls, rfl, hhead, hcommas⟩ := exists_of_map_append helements
    obtain ⟨p, r₁, rfl, hhead₁⟩ := exists_of_map_cons hhead
    obtain ⟨q₁, r₂, rfl, hhead₂⟩ := exists_of_map_cons hhead₁
    obtain ⟨q₂, r₃, rfl, hhead₃⟩ := exists_of_map_cons hhead₂
    obtain ⟨q₃, r₄, rfl, hhead₄⟩ := exists_of_map_cons hhead₃
    obtain ⟨q₄, r₅, rfl, hhead₅⟩ := exists_of_map_cons hhead₄
    obtain ⟨q₅, els, rfl, he'⟩ := exists_of_map_cons hhead₅
    obtain ⟨he, hes⟩ := List.forall_mem_cons.mp hes
    obtain ⟨e', hskeleton, hspells⟩ := he.respelled_logical he'
    obtain ⟨items, hitems, hcommas⟩ := exists_afterCommas hcommas
    obtain ⟨as, rfl, hskeletons, has⟩ :=
      exists_spelled (fun a ha => (hes a ha).respelled_logical) hitems
    rw [List.append_assoc]
    refine ⟨.global (some s) (some t) true
      (.listLiteral (((e', els) :: as).map Prod.fst) none p) none p, ?_,
      .list as hs ht (List.forall_mem_cons.mpr ⟨hspells, has⟩) hcommas⟩
    rw [skeleton, skeleton, skeleton, skeleton, List.map_cons, skeletons, skeletons, hskeleton,
      hskeletons]
  | @mutable s t value _ _ hs ht hv =>
    intro ls hls
    have hword : value.globalWord (some true) = "VAR" := hv.globalWord_eq _
    rw [tokens, hword] at hls
    obtain ⟨ls₁, q₄, rfl, hbody⟩ := exists_of_map_concat hls
    obtain ⟨ls₁, vls, rfl, hhead, hvalue⟩ := exists_of_map_append hbody
    obtain ⟨p, r₁, rfl, hhead₁⟩ := exists_of_map_cons hhead
    obtain ⟨q₁, r₂, rfl, hhead₂⟩ := exists_of_map_cons hhead₁
    obtain ⟨q₂, r₃, rfl, hhead₃⟩ := exists_of_map_cons hhead₂
    obtain ⟨q₃, rfl⟩ := exists_of_map_singleton hhead₃
    obtain ⟨value', hskeleton, hspells⟩ := hv.exists_spellsValue hvalue
    refine ⟨.global (some s) (some t) true value' none p, ?_, .mutable hs ht hspells⟩
    rw [skeleton, skeleton, hskeleton]
  | @immutable s t value _ _ hs ht hv =>
    intro ls hls
    have hword : value.globalWord (some false) = "VAL" := hv.globalWord_eq _
    rw [tokens, hword, if_pos hv.isPresent] at hls
    obtain ⟨ls₁, q₅, rfl, hbody⟩ := exists_of_map_concat hls
    obtain ⟨p, r₁, rfl, hhead₁⟩ := exists_of_map_cons hbody
    obtain ⟨q₁, r₂, rfl, hhead₂⟩ := exists_of_map_cons hhead₁
    obtain ⟨q₂, r₃, rfl, hhead₃⟩ := exists_of_map_cons hhead₂
    obtain ⟨q₃, r₄, rfl, hhead₄⟩ := exists_of_map_cons hhead₃
    obtain ⟨q₄, vls, rfl, hvalue⟩ := exists_of_map_cons hhead₄
    obtain ⟨value', hskeleton, hspells⟩ := hv.respelled_logical hvalue
    refine ⟨.global (some s) (some t) false value' none p, ?_, .immutable hs ht hspells⟩
    rw [skeleton, skeleton, hskeleton]

theorem exists_parameters {parameters : List (String × String)} {items : List (List Lexeme)}
    (h : items.map (List.map Lexeme.token) =
      parameters.map fun x => [.name x.1, .mark ":", .name x.2]) :
    ∃ xs : List SpelledParameter, xs.map SpelledParameter.lexemes = items ∧
      xs.map (fun x => (x.name, x.typeName)) = parameters := by
  induction parameters generalizing items with
  | nil =>
    obtain rfl := List.map_eq_nil_iff.mp h
    exact ⟨[], rfl, rfl⟩
  | cons x parameters ih =>
    obtain ⟨item, items, rfl, hitem, hrest⟩ := List.map_eq_cons_iff.mp h
    obtain ⟨p, r₁, rfl, hitem₁⟩ := exists_of_map_cons hitem
    obtain ⟨q, r₂, rfl, hitem₂⟩ := exists_of_map_cons hitem₁
    obtain ⟨r, rfl⟩ := exists_of_map_singleton hitem₂
    obtain ⟨xs, rfl, rfl⟩ := ih hrest
    exact ⟨⟨x.1, x.2, p, q, r⟩ :: xs, rfl, rfl⟩

theorem zipWith_parameters (parameters : List (String × String)) :
    (parameters.map (some ·.1)).zipWith (fun s t => Name.tokens s ++ Name.typeTokens t)
      (parameters.map (some ·.2)) = parameters.map fun x => [.name x.1, .mark ":", .name x.2] := by
  rw [List.zipWith_map, List.zipWith_self]
  rfl

theorem IsFunction.respelled {f : Node} (h : f.IsFunction N) : Respelled (SpellsFunction N) f := by
  cases h with
  | @function s returnType ss _ _ parameters hs hparameters ht hss =>
    intro ls hls
    rw [tokens, zipWith_parameters] at hls
    change ls.map Lexeme.token = (((.word "FUN" :: .name s :: .mark "(" :: separatedTokens
      (parameters.map fun x => [.name x.1, .mark ":", .name x.2])) ++
        .mark ")" :: Name.typeTokens returnType) ++ .word "DO" :: (tokenLists ss).flatten) ++
        [.word "END"] at hls
    obtain ⟨ls₁, q₅, rfl, hbody⟩ := exists_of_map_concat hls
    obtain ⟨ls₁, ls₃, rfl, hheader, hblock⟩ := exists_of_map_append hbody
    obtain ⟨ls₁, ls₄, rfl, hhead, hclose⟩ := exists_of_map_append hheader
    obtain ⟨p, r₁, rfl, hhead₁⟩ := exists_of_map_cons hhead
    obtain ⟨q₁, r₂, rfl, hhead₂⟩ := exists_of_map_cons hhead₁
    obtain ⟨q₂, pls, rfl, hpls⟩ := exists_of_map_cons hhead₂
    obtain ⟨q₃, tls, rfl, htype⟩ := exists_of_map_cons hclose
    obtain ⟨q₄, bls, rfl, hstatements⟩ := exists_of_map_cons hblock
    obtain ⟨items, hitems, hseparated⟩ := exists_separated hpls
    obtain ⟨xs, rfl, rfl⟩ := exists_parameters hitems
    obtain ⟨bs, rfl, hskeletons, hbs⟩ := exists_block (fun s hs => (hss s hs).respelled) hstatements
    have hxs : ∀ x ∈ xs, N x.name ∧ N x.typeName := fun x hx =>
      hparameters _ (List.mem_map_of_mem hx)
    refine ⟨_, ?_, .function xs bs hs hxs hseparated (exists_spellsType ht htype) hbs⟩
    rw [skeleton, skeleton, hskeletons, List.map_map, List.map_map]
    rfl

/-- **Lexemes with the tokens of a program spell this program, up to places and bindings.** -/
theorem IsProgram.exists_spells {t : Node} (h : t.IsProgram N)
    (hls : ls.map Lexeme.token = t.tokens) :
    ∃ t', t'.skeleton = t.skeleton ∧ SpellsProgram N t' ls := by
  cases h with
  | @source gs fs hgs hfs =>
    obtain ⟨ls₁, ls₂, rfl, hglobals, hfunctions⟩ := exists_of_map_append hls
    obtain ⟨bs, rfl, hskeletons, hbs⟩ := exists_block (fun g hg => (hgs g hg).respelled) hglobals
    obtain ⟨cs, rfl, hskeletons', hcs⟩ := exists_block (fun f hf => (hfs f hf).respelled) hfunctions
    refine ⟨_, ?_, .source bs cs hbs hcs⟩
    rw [skeleton, skeleton, hskeletons, hskeletons']

end Node

end PlcLang
