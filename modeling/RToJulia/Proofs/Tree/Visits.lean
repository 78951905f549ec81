import Mathlib.Data.List.Basic
import RToJulia.Proofs.Tree.Positions

/-! # Visits of a tree

A visitor is called once at every position, children first, and is handed the node there with
its children's answers in their places, and the fault of the last child. What a whole
traversal answers is what the visitor answers at the root.
-/

namespace RToJulia.Node

/-! ## Children in their places -/

def asBody : Node → Option (List Node)
  | block ss => some ss
  | _ => none

def withChildren : Node → List Node → Node
  | program _, cs => program cs
  | block _, cs => block cs
  | assign name _, [value] => assign name value
  | assignIndex _ _ _, [target, i, value] => assignIndex target i value
  | exprStmt _, [expr] => exprStmt expr
  | ifElse _ _ _, [cond, yes] => ifElse cond yes.asBody none
  | ifElse _ _ _, [cond, yes, no] => ifElse cond yes.asBody no.asBody
  | whileLoop _ _, [cond, body] => whileLoop cond body.asBody
  | forLoop name _ _ _, [stop, body] => forLoop name gap stop body.asBody
  | forLoop name _ _ _, [start, stop, body] => forLoop name start stop body.asBody
  | function name params _, [body] => function name params body.asBody
  | operator op cls params _, [body] => operator op cls params body.asBody
  | ret _, [] => ret gap
  | ret _, [value] => ret value
  | call name _, cs => call name cs
  | named name _, [value] => named name value
  | binary op _ _, [left, right] => binary op left right
  | unary op _, [operand] => unary op operand
  | index _ _, [target, i] => index target i
  | field _ name, [target] => field target name
  | predicate test _, [expr] => predicate test expr
  | n, _ => n

@[simp] theorem asBody_block (ss : List Node) : (block ss).asBody = some ss := rfl

@[simp] theorem asBody_bodyNode (body : Option (List Node)) : (bodyNode body).asBody = body := by
  cases body <;> rfl

/-- A node is its own form with its own children. -/
theorem withChildren_children (n : Node) : n.withChildren n.children = n := by
  cases n with
  | ifElse cond yes no => cases no <;> simp [children, withChildren]
  | forLoop name start stop body =>
      rw [children_forLoop]
      by_cases hgap : start = gap
      · subst hgap
        simp [ifThere, isGap, withChildren]
      · simp [ifThere_of_ne hgap, withChildren]
  | ret value =>
      rw [children_ret]
      by_cases hgap : value = gap
      · subst hgap
        rfl
      · rw [ifThere_of_ne hgap]
        rfl
  | whileLoop _ body | function _ _ body | operator _ _ _ body => simp [children, withChildren]
  | _ => rfl

/-! ## One node -/

def lastFault (vs : List (Visited Node)) : Option VisitFault :=
  vs.getLast?.elim none (·.2)

def Visitor.KeepsBlocks {σ : Type} (f : Visitor σ) : Prop :=
  ∀ ss e s, ∃ ss', (f (block ss) e s).1.1 = block ss'

section

variable {σ : Type} {f : Visitor σ} {s s' : σ}

theorem walk_bind {α β : Type} {x : Walk σ α} {g : α → Walk σ β} {a : α} (h : x s = some (a, s')) :
    (x >>= g) s = g a s' := by
  change (x s).bind (fun p => g p.1 p.2) = _
  rw [h]
  rfl

theorem mapM_nil_run {vs : List (Visited Node)}
    (h : ([].mapM (traverse f) : Walk σ _) s = some (vs, s')) : vs = [] ∧ s' = s := by
  cases h
  exact ⟨rfl, rfl⟩

theorem mapM_cons_run {c : Node} {cs : List Node} {vs : List (Visited Node)}
    (h : ((c :: cs).mapM (traverse f) : Walk σ _) s = some (vs, s')) :
    ∃ v s₁ vs', traverse f c s = some (v, s₁) ∧ cs.mapM (traverse f) s₁ = some (vs', s') ∧
      vs = v :: vs' := by
  rw [List.mapM_cons] at h
  cases hc : traverse f c s with
  | none =>
      change (traverse f c s).bind _ = _ at h
      rw [hc] at h
      cases h
  | some p =>
      obtain ⟨v, s₁⟩ := p
      rw [walk_bind hc] at h
      cases hcs : cs.mapM (traverse f) s₁ with
      | none =>
          change (cs.mapM (traverse f) s₁).bind _ = _ at h
          rw [hcs] at h
          cases h
      | some p =>
          obtain ⟨vs', s₂⟩ := p
          rw [walk_bind hcs] at h
          cases h
          exact ⟨v, s₁, vs', rfl, hcs, rfl⟩

theorem traverseAll_run {ns : List Node} {vs : List (Visited Node)} (e : Option VisitFault)
    (h : ns.mapM (traverse f) s = some (vs, s')) :
    traverseAll f ns e s = some ((vs.map (·.1), vs.getLast?.elim e (·.2)), s') := by
  induction ns generalizing s vs e with
  | nil =>
      obtain ⟨rfl, rfl⟩ := mapM_nil_run h
      rfl
  | cons n ns ih =>
      obtain ⟨v, s₁, vs, hn, hns, rfl⟩ := mapM_cons_run h
      rw [traverseAll, walk_bind hn]
      change (traverseAll f ns v.2 >>= fun p => pure (v.1 :: p.1, p.2)) s₁ = _
      rw [walk_bind (ih v.2 hns)]
      cases vs <;> rfl

theorem traverse_block_inv {ss : List Node} {v : Visited Node}
    (h : traverse f (block ss) s = some (v, s')) :
    ∃ vs e s₁, traverseAll f ss none s = some ((vs, e), s₁) ∧ f (block vs) e s₁ = (v, s') := by
  rw [traverse] at h
  cases hss : traverseAll f ss none s with
  | none =>
      change (traverseAll f ss none s).bind _ = _ at h
      rw [hss] at h
      cases h
  | some p =>
      obtain ⟨⟨vs, e⟩, s₁⟩ := p
      rw [walk_bind hss] at h
      exact ⟨vs, e, s₁, rfl, Option.some.inj h⟩

theorem traverseBody_run {ss ss' : List Node} {e : Option VisitFault}
    (h : traverse f (block ss) s = some ((block ss', e), s')) :
    traverseBody f (some ss) s = some ((some ss', e), s') := by
  obtain ⟨vs, e', s₁, hss, hf⟩ := traverse_block_inv h
  rw [traverseBody, walk_bind hss]
  change (Walk.visit f (block vs) e' >>= _) s₁ = _
  rw [walk_bind (congrArg some hf)]
  rfl

theorem traverseElse_run {ss ss' : List Node} {e : Option VisitFault} (e₀ : Option VisitFault)
    (h : traverse f (block ss) s = some ((block ss', e), s')) :
    traverseElse f (some ss) e₀ s = some ((some ss', e), s') := by
  obtain ⟨vs, e', s₁, hss, hf⟩ := traverse_block_inv h
  rw [traverseElse, walk_bind hss]
  change (Walk.visit f (block vs) e' >>= _) s₁ = _
  rw [walk_bind (congrArg some hf)]
  rfl

theorem Visitor.KeepsBlocks.block_run (hf : f.KeepsBlocks) {ss : List Node} {v : Visited Node}
    (h : traverse f (block ss) s = some (v, s')) : ∃ ss' e, v = (block ss', e) := by
  obtain ⟨vs, e, s₁, -, hv⟩ := traverse_block_inv h
  obtain ⟨ss', hss'⟩ := hf vs e s₁
  rw [hv] at hss'
  exact ⟨ss', v.2, Prod.ext hss' rfl⟩

theorem Visitor.KeepsBlocks.body_run (hf : f.KeepsBlocks) {body : Option (List Node)}
    {v : Visited Node} (h : traverse f (bodyNode body) s = some (v, s')) :
    ∃ ss' e, v = (block ss', e) ∧ traverseBody f body s = some ((some ss', e), s') := by
  cases body with
  | none =>
      rw [bodyNode, traverse] at h
      cases h
  | some ss =>
      obtain ⟨ss', e, rfl⟩ := hf.block_run h
      exact ⟨ss', e, rfl, traverseBody_run h⟩

/-- A node is visited after its children, with their visits in place of them. -/
theorem traverse_run (hf : f.KeepsBlocks) {n : Node} (hn : n ≠ gap) {vs : List (Visited Node)}
    (h : n.children.mapM (traverse f) s = some (vs, s')) :
    traverse f n s = some (f (n.withChildren (vs.map (·.1))) (lastFault vs) s') := by
  cases n with
  | gap => exact absurd rfl hn
  | var _ | int _ | float _ | string _ | bool _ =>
      obtain ⟨rfl, rfl⟩ := mapM_nil_run h
      rw [traverse]
      rfl
  | program ss | block ss | call _ ss =>
      have hall : traverseAll f ss none s = _ := traverseAll_run none h
      rw [traverse, walk_bind hall]
      rfl
  | assign _ value | exprStmt value | named _ value | unary _ value | field value _
  | predicate _ value =>
      obtain ⟨v, s₁, _, hv, hnil, rfl⟩ := mapM_cons_run h
      obtain ⟨rfl, rfl⟩ := mapM_nil_run hnil
      rw [traverse, walk_bind hv]
      rfl
  | binary _ left right | index left right =>
      obtain ⟨v, s₁, _, hv, hrest, rfl⟩ := mapM_cons_run h
      obtain ⟨w, s₂, _, hw, hnil, rfl⟩ := mapM_cons_run hrest
      obtain ⟨rfl, rfl⟩ := mapM_nil_run hnil
      rw [traverse, walk_bind hv]
      change (traverse f right >>= _) s₁ = _
      rw [walk_bind hw]
      rfl
  | assignIndex target i value =>
      obtain ⟨v, s₁, _, hv, hrest, rfl⟩ := mapM_cons_run h
      obtain ⟨w, s₂, _, hw, hlast, rfl⟩ := mapM_cons_run hrest
      obtain ⟨x, s₃, _, hx, hnil, rfl⟩ := mapM_cons_run hlast
      obtain ⟨rfl, rfl⟩ := mapM_nil_run hnil
      rw [traverse, walk_bind hv]
      change (traverse f i >>= _) s₁ = _
      rw [walk_bind hw]
      change (traverse f value >>= _) s₂ = _
      rw [walk_bind hx]
      rfl
  | function _ _ body | operator _ _ _ body =>
      obtain ⟨v, s₁, _, hv, hnil, rfl⟩ := mapM_cons_run h
      obtain ⟨rfl, rfl⟩ := mapM_nil_run hnil
      obtain ⟨ss, e, rfl, hbody⟩ := hf.body_run hv
      rw [traverse, walk_bind hbody]
      rfl
  | whileLoop cond body =>
      obtain ⟨v, s₁, _, hv, hrest, rfl⟩ := mapM_cons_run h
      obtain ⟨w, s₂, _, hw, hnil, rfl⟩ := mapM_cons_run hrest
      obtain ⟨rfl, rfl⟩ := mapM_nil_run hnil
      obtain ⟨ss, e, rfl, hbody⟩ := hf.body_run hw
      rw [traverse, walk_bind hv]
      change (traverseBody f body >>= _) s₁ = _
      rw [walk_bind hbody]
      rfl
  | ifElse cond yes no =>
      obtain ⟨v, s₁, _, hv, hrest, rfl⟩ := mapM_cons_run h
      obtain ⟨w, s₂, _, hw, hlast, rfl⟩ := mapM_cons_run hrest
      obtain ⟨ss, e, rfl, hbody⟩ := hf.body_run hw
      rw [traverse, walk_bind hv]
      change (traverseBody f yes >>= _) s₁ = _
      rw [walk_bind hbody]
      cases no with
      | none =>
          obtain ⟨rfl, rfl⟩ := mapM_nil_run hlast
          rfl
      | some no =>
          obtain ⟨x, s₃, _, hx, hnil, rfl⟩ := mapM_cons_run hlast
          obtain ⟨rfl, rfl⟩ := mapM_nil_run hnil
          obtain ⟨ss', e', rfl⟩ := hf.block_run hx
          change (traverseElse f (some no) e >>= _) s₂ = _
          rw [walk_bind (traverseElse_run e hx)]
          rfl
  | ret value =>
      rw [children_ret] at h
      by_cases hgap : value = gap
      · subst hgap
        obtain ⟨rfl, rfl⟩ := mapM_nil_run h
        rw [traverse]
        rfl
      · rw [ifThere_of_ne hgap] at h
        obtain ⟨v, s₁, _, hv, hnil, rfl⟩ := mapM_cons_run h
        obtain ⟨rfl, rfl⟩ := mapM_nil_run hnil
        rw [traverse]
        · rw [walk_bind hv]
          rfl
        · exact hgap
  | forLoop name start stop body =>
      rw [children_forLoop] at h
      by_cases hgap : start = gap
      · subst hgap
        obtain ⟨v, s₁, _, hv, hrest, rfl⟩ := mapM_cons_run h
        obtain ⟨w, s₂, _, hw, hnil, rfl⟩ := mapM_cons_run hrest
        obtain ⟨rfl, rfl⟩ := mapM_nil_run hnil
        obtain ⟨ss, e, rfl, hbody⟩ := hf.body_run hw
        rw [traverse, walk_bind (rfl : (pure (gap, none) : Walk σ (Visited Node)) s = _)]
        change (traverse f stop >>= _) s = _
        rw [walk_bind hv]
        change (traverseBody f body >>= _) s₁ = _
        rw [walk_bind hbody]
        rfl
      · rw [ifThere_of_ne hgap] at h
        obtain ⟨v, s₁, _, hv, hrest, rfl⟩ := mapM_cons_run h
        obtain ⟨w, s₂, _, hw, hlast, rfl⟩ := mapM_cons_run hrest
        obtain ⟨x, s₃, _, hx, hnil, rfl⟩ := mapM_cons_run hlast
        obtain ⟨rfl, rfl⟩ := mapM_nil_run hnil
        obtain ⟨ss, e, rfl, hbody⟩ := hf.body_run hx
        rw [traverse]
        · rw [walk_bind hv]
          change (traverse f stop >>= _) s₁ = _
          rw [walk_bind hw]
          change (traverseBody f body >>= _) s₂ = _
          rw [walk_bind hbody]
          rfl
        · exact hgap

/-! ## A whole tree -/

/-- Calls of a visitor one after the other, each with what it is handed and what it answers. -/
inductive Calls (f : Visitor σ) : σ → List (Visited Node × Visited Node) → σ → Prop
  | nil (s : σ) : Calls f s [] s
  | cons {handed answer : Visited Node} {s s₁ s' : σ} {later : List (Visited Node × Visited Node)}
      (first : f handed.1 handed.2 s = (answer, s₁)) (rest : Calls f s₁ later s') :
      Calls f s ((handed, answer) :: later) s'

theorem Calls.append {s₁ : σ} {cs ds : List (Visited Node × Visited Node)} (h : Calls f s cs s₁)
    (h' : Calls f s₁ ds s') : Calls f s (cs ++ ds) s' := by
  induction h with
  | nil => exact h'
  | cons first _ ih => exact .cons first (ih h')

theorem Calls.of_mem {cs : List (Visited Node × Visited Node)} {c : Visited Node × Visited Node}
    (h : Calls f s cs s') (hc : c ∈ cs) : ∃ s s', f c.1.1 c.1.2 s = (c.2, s') := by
  induction h with
  | nil => simp at hc
  | cons first _ ih =>
      rcases List.mem_cons.mp hc with rfl | hc
      · exact ⟨_, _, first⟩
      · exact ih hc

end

def childAnswers {α : Type} (n : Node) (answers : Position → α) (p : Position) : List α :=
  (List.range (n.nodeAt p).children.length).map fun i => answers (p ++ [i])

/-- What a visitor with these answers is handed at a position: the node with the answers at its
children in their places, and the fault of the last of them. -/
def handed (n : Node) (answers : Position → Visited Node) (p : Position) : Visited Node :=
  ((n.nodeAt p).withChildren ((n.childAnswers answers p).map (·.1)),
    lastFault (n.childAnswers answers p))

def calls (n : Node) (answers : Position → Visited Node) : List (Visited Node × Visited Node) :=
  n.positions.map fun p => (n.handed answers p, answers p)

theorem handed_cons {n c : Node} {i : Nat} (h : n.children[i]? = some c)
    (answers : Position → Visited Node) (p : Position) :
    n.handed answers (i :: p) = c.handed (fun q => answers (i :: q)) p := by
  have hnode : n.nodeAt (i :: p) = c.nodeAt p := by
    unfold nodeAt
    rw [at?_cons h]
  unfold handed childAnswers
  rw [hnode]
  rfl

/-- The calls at all positions are those below each child, in order, and then the one at the
root. -/
theorem calls_eq (n : Node) (answers : Position → Visited Node) :
    n.calls answers =
      (n.children.zipIdx.flatMap fun c => c.1.calls fun p => answers (c.2 :: p)) ++
        [(n.handed answers [], answers [])] := by
  unfold calls
  rw [positions_eq, List.map_append, List.map_flatMap]
  congr 1
  refine List.flatMap_congr fun c hc => ?_
  rw [List.map_map]
  refine List.map_congr_left fun p _ => ?_
  have hget : n.children[c.2]? = some c.1 := List.mk_mem_zipIdx_iff_getElem?.mp hc
  simp only [Function.comp_apply, handed_cons hget]

section

variable {σ : Type} {f : Visitor σ}

/-- The answers of `first` below the child `k`, and those of `later` below the others. -/
def belowChild (k : Nat) (first later : Position → Visited Node) : Position → Visited Node
  | [] => later []
  | i :: p => if i = k then first p else later (i :: p)

def withRoot (answer : Visited Node) (below : Position → Visited Node) : Position → Visited Node
  | [] => answer
  | i :: p => below (i :: p)

/-- Trees that are visited one after the other. -/
theorem mapM_calls {cs : List Node}
    (h : ∀ c ∈ cs, ∀ s, ∃ answers s', traverse f c s = some (answers [], s') ∧
      Calls f s (c.calls answers) s') (k : Nat) (s : σ) :
    ∃ (answers : Position → Visited Node) (s' : σ),
      cs.mapM (traverse f) s = some ((cs.zipIdx k).map fun c => answers [c.2], s') ∧
        Calls f s ((cs.zipIdx k).flatMap fun c => c.1.calls fun p => answers (c.2 :: p)) s' := by
  induction cs generalizing k s with
  | nil => exact ⟨fun _ => (gap, none), s, rfl, .nil s⟩
  | cons c cs ih =>
      obtain ⟨first, s₁, hc, hcalls⟩ := h c (by simp) s
      obtain ⟨later, s', hcs, hrest⟩ := ih (fun d hd => h d (by simp [hd])) (k + 1) s₁
      have hfirst : (fun p => belowChild k first later (k :: p)) = first :=
        funext fun p => if_pos rfl
      have hlater : ∀ d ∈ cs.zipIdx (k + 1), (fun p => belowChild k first later (d.2 :: p)) =
          fun p => later (d.2 :: p) := by
        intro d hd
        have hle : k + 1 ≤ d.2 := List.le_snd_of_mem_zipIdx hd
        exact funext fun p => if_neg (by omega)
      refine ⟨belowChild k first later, s', ?_, ?_⟩
      · have hanswers : (cs.zipIdx (k + 1)).map (fun d => belowChild k first later [d.2]) =
            (cs.zipIdx (k + 1)).map fun d => later [d.2] :=
          List.map_congr_left fun d hd => congrFun (hlater d hd) []
        rw [List.mapM_cons, walk_bind hc, walk_bind hcs, List.zipIdx_cons, List.map_cons, hanswers,
          ← congrFun hfirst []]
        rfl
      · rw [List.zipIdx_cons, List.flatMap_cons, hfirst]
        refine hcalls.append ?_
        rw [List.flatMap_congr fun d hd => by rw [hlater d hd]]
        exact hrest

/-- A traversal is one call at every position, and its answer is the one at the root. -/
theorem traverse_calls (hf : f.KeepsBlocks) {n : Node} (hn : Whole n) (s : σ) :
    ∃ answers s', traverse f n s = some (answers [], s') ∧ Calls f s (n.calls answers) s' := by
  induction n using children_induction generalizing s with
  | h n ih =>
  obtain ⟨below, s₁, hchildren, hcalls⟩ := mapM_calls (fun c hc s => ih c hc (hn.child hc) s) 0 s
  have hvisits : (n.children.zipIdx.map fun c => below [c.2]) = n.childAnswers below [] := by
    unfold childAnswers
    rw [List.range_eq_range', ← List.zipIdx_map_snd, List.map_map]
    rfl
  have hroot := traverse_run hf hn.ne_gap hchildren
  rw [hvisits] at hroot
  refine ⟨withRoot (f (n.handed below []).1 (n.handed below []).2 s₁).1 below, _, hroot, ?_⟩
  rw [calls_eq]
  exact hcalls.append (.cons rfl (.nil _))

/-! ## Visitors that leave the nodes alone -/

/-- Where every answer has the node that was handed, it is the node of the tree. -/
theorem answer_eq_nodeAt {n : Node} {answers : Position → Visited Node}
    (h : ∀ p ∈ n.positions, (answers p).1 = (n.handed answers p).1) {p : Position} {m : Node}
    (hp : n.at? p = some m) : (answers p).1 = m := by
  induction m using children_induction generalizing p with
  | h m ih =>
  have hnode : n.nodeAt p = m := by
    unfold nodeAt
    rw [hp]
    rfl
  have hchildren : (n.childAnswers answers p).map (·.1) = m.children := by
    unfold childAnswers
    rw [hnode, List.map_map]
    refine List.ext_getElem (by simp) fun i hi hi' => ?_
    have hchild : n.at? (p ++ [i]) = some m.children[i] := by
      rw [at?_child hp, List.getElem?_eq_getElem hi']
    simpa using ih _ (List.getElem_mem hi') hchild
  rw [h p ((mem_positions n p).mpr (by rw [hp]; rfl)), handed, hnode, hchildren,
    withChildren_children]

end

def faultHanded (n : Node) (faults : Position → Option VisitFault) (p : Position) :
    Option VisitFault :=
  match (n.nodeAt p).children.length with
  | 0 => none
  | i + 1 => faults (p ++ [i])

theorem lastFault_childAnswers (n : Node) (answers : Position → Visited Node) (p : Position) :
    lastFault (n.childAnswers answers p) = n.faultHanded (fun q => (answers q).2) p := by
  unfold lastFault childAnswers faultHanded
  cases (n.nodeAt p).children.length with
  | zero => rfl
  | succ i => simp [List.range_succ]

def sameCalls (n : Node) (faults : Position → Option VisitFault) :
    List (Visited Node × Visited Node) :=
  n.positions.map fun p => ((n.nodeAt p, n.faultHanded faults p), (n.nodeAt p, faults p))

section

variable {σ : Type} {f : Visitor σ}

/-- A visitor that returns every node as it was leaves the tree as it was. -/
theorem traverse_same (hf : ∀ m e s, (f m e s).1.1 = m) {n : Node} (hn : Whole n) (s : σ) :
    ∃ faults s', traverse f n s = some ((n, faults []), s') ∧
      Calls f s (n.sameCalls faults) s' := by
  have hblocks : f.KeepsBlocks := fun ss e s => ⟨ss, hf (block ss) e s⟩
  obtain ⟨answers, s', hrun, hcalls⟩ := traverse_calls hblocks hn s
  have hsame : ∀ p ∈ n.positions, (answers p).1 = (n.handed answers p).1 := by
    intro p hp
    obtain ⟨s, s', hcall⟩ := hcalls.of_mem (List.mem_map.mpr ⟨p, hp, rfl⟩)
    rw [← hf (n.handed answers p).1 (n.handed answers p).2 s, hcall]
  have hnode : ∀ p ∈ n.positions, (answers p).1 = n.nodeAt p := by
    intro p hp
    obtain ⟨m, hm⟩ := Option.isSome_iff_exists.mp ((mem_positions n p).mp hp)
    rw [answer_eq_nodeAt hsame hm, nodeAt, hm]
    rfl
  have hsameCalls : n.calls answers = n.sameCalls fun p => (answers p).2 := by
    refine List.map_congr_left fun p hp => ?_
    have hhanded : n.handed answers p = (n.nodeAt p, n.faultHanded (fun q => (answers q).2) p) :=
      Prod.ext ((hsame p hp).symm.trans (hnode p hp)) (lastFault_childAnswers n answers p)
    rw [hhanded, ← hnode p hp]
  refine ⟨fun p => (answers p).2, s', ?_, hsameCalls ▸ hcalls⟩
  rw [hrun]
  have hroot : (answers []).1 = n := answer_eq_nodeAt hsame rfl
  rw [← hroot]

end

end RToJulia.Node
