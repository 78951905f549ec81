import RToJulia.Proofs.Tree.Visits

/-! # What a traversal tells

The nodes of a tree are listed exactly, one for each position, and a traversal with a visitor
that raises no fault rebuilds the tree from its children up. Faults are another matter: a
node is handed the fault of its last child only, so a fault is in the end what it is along
the last children, and one that is raised beside them is lost.
-/

namespace RToJulia.Node

/-! ## The nodes of a tree -/

theorem nodeAt_of_at? {n m : Node} {p : Position} (h : n.at? p = some m) : n.nodeAt p = m := by
  unfold nodeAt
  rw [h]
  rfl

theorem Calls.noted {cs : List (Visited Node × Visited Node)} {seen seen' : List Node}
    (h : Calls noting seen cs seen') : seen' = (cs.map (·.1.1)).reverse ++ seen := by
  induction h with
  | nil => rfl
  | cons first _ ih =>
      cases first
      rw [ih]
      simp

theorem universe?_eq_positions {n : Node} (h : Whole n) :
    universe? n = some (n.positions.map n.nodeAt) := by
  have hsame : ∀ m e s, (noting m e s).1.1 = m := fun _ _ _ => rfl
  obtain ⟨faults, seen, hrun, hcalls⟩ := traverse_same hsame h []
  unfold universe?
  rw [hrun, hcalls.noted]
  simp [sameCalls]

/-- The nodes of a tree are those of its children, in order, and then the root. -/
theorem map_nodeAt_positions (n : Node) :
    n.positions.map n.nodeAt =
      (n.children.map fun c => c.positions.map c.nodeAt).flatten ++ [n] := by
  rw [positions_eq, List.map_append, List.map_flatMap, ← List.flatMap_def]
  congr 1
  conv => rhs; rw [← List.zipIdx_map_fst 0 n.children, List.flatMap_map]
  refine List.flatMap_congr fun c hc => ?_
  rw [List.map_map]
  refine List.map_congr_left fun p _ => ?_
  have hget : n.children[c.2]? = some c.1 := List.mk_mem_zipIdx_iff_getElem?.mp hc
  simp only [Function.comp_apply, nodeAt, at?_cons hget]

theorem mapM_universe? {cs : List Node} (h : ∀ c ∈ cs, Whole c) :
    cs.mapM universe? = some (cs.map fun c => c.positions.map c.nodeAt) := by
  induction cs with
  | nil => rfl
  | cons c cs ih =>
      rw [List.mapM_cons, universe?_eq_positions (h c (by simp)), ih fun d hd => h d (by simp [hd])]
      rfl

/-! ## Visitors that raise no fault -/

section

variable {σ : Type} {f : Visitor σ}

/-- A visitor that raises no fault. It may pass on the ones it is handed. -/
def Visitor.Faultless (f : Visitor σ) : Prop :=
  ∀ m s, (f m none s).1.2 = none

/-- Where no fault is raised, none is handed on from child to parent. -/
theorem Visitor.Faultless.answer_snd (hfault : f.Faultless) {n : Node} {s s' : σ}
    {answers : Position → Visited Node} (hcalls : Calls f s (n.calls answers) s') {p : Position}
    {m : Node} (hp : n.at? p = some m) : (n.handed answers p).2 = none ∧ (answers p).2 = none := by
  induction m using children_induction generalizing p with
  | h m ih =>
  have hhanded : (n.handed answers p).2 = none := by
    change lastFault (n.childAnswers answers p) = none
    rw [lastFault_childAnswers, faultHanded, nodeAt_of_at? hp]
    split
    · rfl
    · rename_i i hlength
      have hi : i < m.children.length := by omega
      have hchild : n.at? (p ++ [i]) = some m.children[i] := by
        rw [at?_child hp, List.getElem?_eq_getElem hi]
      exact (ih _ (List.getElem_mem hi) hchild).2
  have hmem : p ∈ n.positions := (mem_positions n p).mpr (by rw [hp]; rfl)
  obtain ⟨s, s', hcall⟩ := hcalls.of_mem (List.mem_map.mpr ⟨p, hmem, rfl⟩)
  have hanswer := hfault (n.handed answers p).1 s
  rw [← hhanded, hcall] at hanswer
  exact ⟨hhanded, hanswer.trans hhanded⟩

/-- Without faults, a visitor is called at every position with the node there, in which the
answers at its children have their places. -/
theorem traverse_faultless (hfault : f.Faultless) (hf : f.KeepsBlocks) {n : Node} (hn : Whole n)
    (s : σ) : ∃ (answers : Position → Node) (s' : σ),
      traverse f n s = some ((answers [], none), s') ∧ Calls f s (n.positions.map fun p =>
        (((n.nodeAt p).withChildren (n.childAnswers answers p), none), (answers p, none))) s' := by
  obtain ⟨answers, s', hrun, hcalls⟩ := traverse_calls hf hn s
  have hfaults : ∀ p ∈ n.positions, (n.handed answers p).2 = none ∧ (answers p).2 = none := by
    intro p hp
    obtain ⟨m, hm⟩ := Option.isSome_iff_exists.mp ((mem_positions n p).mp hp)
    exact hfault.answer_snd hcalls hm
  have hnone : ∀ p ∈ n.positions, answers p = ((answers p).1, none) :=
    fun p hp => Prod.ext rfl (hfaults p hp).2
  have hhanded : ∀ p ∈ n.positions, n.handed answers p =
      ((n.nodeAt p).withChildren (n.childAnswers (fun q => (answers q).1) p), none) := by
    intro p hp
    refine Prod.ext ?_ (hfaults p hp).1
    simp [handed, childAnswers, Function.comp_def]
  refine ⟨fun p => (answers p).1, s', ?_, ?_⟩
  · rw [hrun, hnone [] ((mem_positions n []).mpr rfl)]
  · have hall : n.calls answers = n.positions.map fun p =>
        (((n.nodeAt p).withChildren (n.childAnswers (fun q => (answers q).1) p), none),
          ((answers p).1, none)) := by
      refine List.map_congr_left fun p hp => ?_
      rw [hhanded p hp, ← hnone p hp]
    exact hall ▸ hcalls

theorem mapM_faultless (hfault : f.Faultless) (hf : f.KeepsBlocks) {cs : List Node}
    (h : ∀ c ∈ cs, Whole c) (s : σ) :
    ∃ (ns : List Node) (s' : σ),
      cs.mapM (traverse f) s = some (ns.map fun n => (n, none), s') := by
  induction cs generalizing s with
  | nil => exact ⟨[], s, rfl⟩
  | cons c cs ih =>
      obtain ⟨answers, s₁, hc, -⟩ := traverse_faultless hfault hf (h c (by simp)) s
      obtain ⟨ns, s', hcs⟩ := ih (fun d hd => h d (by simp [hd])) s₁
      refine ⟨answers [] :: ns, s', ?_⟩
      rw [List.mapM_cons, walk_bind hc, walk_bind hcs]
      rfl

/-- Without faults, the answer to a node is the one to it with its children's answers in their
places. -/
theorem traverse_from_children (hfault : f.Faultless) (hf : f.KeepsBlocks) {n : Node}
    (hn : Whole n) (s : σ) : ∃ (cs : List Node) (s₁ : σ),
      n.children.mapM (traverse f) s = some (cs.map fun c => (c, none), s₁) ∧
        traverse f n s = some (f (n.withChildren cs) none s₁) := by
  obtain ⟨cs, s₁, hchildren⟩ := mapM_faultless hfault hf (fun _ hc => hn.child hc) s
  refine ⟨cs, s₁, hchildren, ?_⟩
  have hlast : lastFault (cs.map fun c => (c, none)) = none := by
    unfold lastFault
    rw [List.getLast?_map]
    cases cs.getLast? <;> rfl
  rw [traverse_run hf hn.ne_gap hchildren, hlast, List.map_map, Function.comp_def, List.map_id']

end

/-- A traversal is exact. The nodes of a tree are listed once for each position, children before
parents and siblings in order, and a visitor that raises no fault and keeps blocks is called
at just these positions, in this order, with the nodes rebuilt from the answers below them. A
visitor that changes nothing leaves the tree as it was. -/
theorem traversal_exact {n : Node} (h : Whole n) :
    (∃ uss, n.children.mapM universe? = some uss ∧ universe? n = some (uss.flatten ++ [n])) ∧
      universe? n = some (n.positions.map n.nodeAt) ∧
      (∀ p, p ∈ n.positions ↔ (n.at? p).isSome) ∧ n.positions.Pairwise Position.Before ∧
      (∀ {σ : Type} (f : Visitor σ), f.Faultless → f.KeepsBlocks → ∀ s,
        (∃ (cs : List Node) (s₁ : σ),
          n.children.mapM (traverse f) s = some (cs.map fun c => (c, none), s₁) ∧
            traverse f n s = some (f (n.withChildren cs) none s₁)) ∧
        ∃ (answers : Position → Node) (s' : σ), traverse f n s = some ((answers [], none), s') ∧
          Calls f s (n.positions.map fun p =>
            (((n.nodeAt p).withChildren (n.childAnswers answers p), none), (answers p, none))) s') ∧
      ∀ {σ : Type} (f : Visitor σ), f.Faultless → (∀ m e s, (f m e s).1.1 = m) →
        ∀ s, ∃ s', traverse f n s = some ((n, none), s') := by
  refine ⟨⟨_, mapM_universe? fun c hc => h.child hc, ?_⟩, universe?_eq_positions h, mem_positions n,
    pairwise_positions n, fun f hfault hf s =>
      ⟨traverse_from_children hfault hf h s, traverse_faultless hfault hf h s⟩, ?_⟩
  · rw [universe?_eq_positions h, map_nodeAt_positions]
  · intro σ f hfault hsame s
    have hblocks : f.KeepsBlocks := fun ss e s => ⟨ss, hsame (block ss) e s⟩
    obtain ⟨faults, s', hrun, -⟩ := traverse_same hsame h s
    obtain ⟨answers, s'', hrun', -⟩ := traverse_faultless hfault hblocks h s
    have hroot : faults [] = none :=
      congrArg (fun answer => answer.1.2) (Option.some.inj (hrun.symm.trans hrun'))
    exact ⟨s', by rw [hrun, hroot]⟩

theorem Whole.of_areStatements {ss : List Node} (h : areStatements ss = true) :
    Whole (program ss) := by
  rintro m hm rfl
  exact absurd (hm.isPart h) (by decide)

/-- `if (a) return else b` has an open place, which is no node of it. -/
theorem traversal_exact_open_place :
    Whole (program [ifElse (var "a") (some [ret gap]) (some [exprStmt (var "b")])]) ∧
      (positions (program [ifElse (var "a") (some [ret gap]) (some [exprStmt (var "b")])])).map
          (nodeAt (program [ifElse (var "a") (some [ret gap]) (some [exprStmt (var "b")])])) =
        [var "a", ret gap, block [ret gap], var "b", exprStmt (var "b"), block [exprStmt (var "b")],
          ifElse (var "a") (some [ret gap]) (some [exprStmt (var "b")]),
          program [ifElse (var "a") (some [ret gap]) (some [exprStmt (var "b")])]] := by
  have hwhole : Whole (program [ifElse (var "a") (some [ret gap]) (some [exprStmt (var "b")])]) :=
    .of_areStatements rfl
  exact ⟨hwhole, Option.some.inj ((traversal_exact hwhole).2.1.symm.trans rfl)⟩

/-! ## Faults -/

inductive LastBranch (n : Node) : Position → Prop
  | root : LastBranch n []
  | step {p : Position} {i : Nat} (above : LastBranch n p)
      (last : (n.nodeAt p).children.length = i + 1) : LastBranch n (p ++ [i])

theorem mem_positions_child {n : Node} {p : Position} {i : Nat} (hp : p ∈ n.positions)
    (hi : i < (n.nodeAt p).children.length) : p ++ [i] ∈ n.positions := by
  obtain ⟨m, hm⟩ := Option.isSome_iff_exists.mp ((mem_positions n p).mp hp)
  rw [nodeAt_of_at? hm] at hi
  rw [mem_positions, at?_child hm, List.getElem?_eq_getElem hi]
  rfl

theorem LastBranch.mem_positions {n : Node} {p : Position} (h : LastBranch n p) :
    p ∈ n.positions := by
  induction h with
  | root => exact (Node.mem_positions n []).mpr rfl
  | step _ last ih => exact mem_positions_child ih (by omega)

section

variable {σ : Type} {f : Visitor σ} {n : Node} {s s' : σ} {faults : Position → Option VisitFault}

/-- A fault on the last branch is passed on to the root. -/
theorem LastBranch.root_fault (hpass : ∀ m e s, (f m (some e) s).1.2 ≠ none)
    (hcalls : Calls f s (n.sameCalls faults) s') {p : Position} (h : LastBranch n p)
    (hp : faults p ≠ none) : faults [] ≠ none := by
  induction h with
  | root => exact hp
  | @step p i above last ih =>
      refine ih ?_
      obtain ⟨s₁, s₂, hcall⟩ := hcalls.of_mem (List.mem_map.mpr ⟨p, above.mem_positions, rfl⟩)
      obtain ⟨e, he⟩ := Option.ne_none_iff_exists'.mp hp
      have hhanded : n.faultHanded faults p = some e := by
        unfold faultHanded
        rw [last]
        exact he
      have hanswer := hpass (n.nodeAt p) e s₁
      rw [← hhanded, hcall] at hanswer
      exact hanswer

/-- A fault on the last branch was raised on it. -/
theorem LastBranch.exists_raised {p : Position} {m : Node} (h : LastBranch n p)
    (hm : n.at? p = some m) (hp : faults p ≠ none) :
    ∃ q, LastBranch n q ∧ n.faultHanded faults q = none ∧ faults q ≠ none := by
  induction m using children_induction generalizing p with
  | h m ih =>
  cases hlength : (n.nodeAt p).children.length with
  | zero => exact ⟨p, h, by rw [faultHanded, hlength], hp⟩
  | succ i =>
      by_cases hlast : faults (p ++ [i]) = none
      · exact ⟨p, h, by rw [faultHanded, hlength]; exact hlast, hp⟩
      · have hi : i < m.children.length := by
          rw [← nodeAt_of_at? hm, hlength]
          exact Nat.lt_succ_self i
        have hchild : n.at? (p ++ [i]) = some m.children[i] := by
          rw [at?_child hm, List.getElem?_eq_getElem hi]
        exact ih _ (List.getElem_mem hi) (h.step hlength) hchild hlast

/-- A visitor that leaves the nodes alone and passes faults on is called once at every position,
children first, with the fault of the last child. The traversal ends in a fault just when one is
raised at the root, at its last child, at the last child of that one, and so on down. -/
theorem fault_iff_raised_on_last_branch (hn : Whole n) (hsame : ∀ m e s, (f m e s).1.1 = m)
    (hpass : ∀ m e s, (f m (some e) s).1.2 ≠ none) (s : σ) :
    ∃ (faults : Position → Option VisitFault) (s' : σ),
      traverse f n s = some ((n, faults []), s') ∧ Calls f s (n.sameCalls faults) s' ∧
        (faults [] ≠ none ↔
          ∃ p, LastBranch n p ∧ n.faultHanded faults p = none ∧ faults p ≠ none) := by
  obtain ⟨faults, s', hrun, hcalls⟩ := traverse_same hsame hn s
  refine ⟨faults, s', hrun, hcalls, fun h => LastBranch.root.exists_raised rfl h, ?_⟩
  rintro ⟨p, hp, -, hraised⟩
  exact hp.root_fault hpass hcalls hraised

end

def faultAt (x : Bytes) : Visitor Unit
  | var y, e, s => ((var y, if y = x then some (.raised x) else e), s)
  | n, e, s => ((n, e), s)

theorem faultAt_same (x : Bytes) (m : Node) (e : Option VisitFault) (s : Unit) :
    (faultAt x m e s).1.1 = m := by
  cases m <;> rfl

theorem faultAt_passes (x : Bytes) (m : Node) (e : VisitFault) (s : Unit) :
    (faultAt x m (some e) s).1.2 ≠ none := by
  cases m with
  | var y =>
      change (if y = x then some (VisitFault.raised x) else some e) ≠ none
      split <;> simp
  | _ => exact Option.some_ne_none e

/-- The fault at `y` in `x + y` is raised on the last branch, and the traversal ends in a fault. -/
theorem fault_iff_raised_on_last_branch_operand :
    Whole (program [exprStmt (binary "+" (var "x") (var "y"))]) ∧
      ∃ e s', traverse (faultAt "y") (program [exprStmt (binary "+" (var "x") (var "y"))]) () =
        some ((program [exprStmt (binary "+" (var "x") (var "y"))], some e), s') := by
  have hwhole : Whole (program [exprStmt (binary "+" (var "x") (var "y"))]) := .of_areStatements rfl
  obtain ⟨faults, s', hrun, hcalls, hiff⟩ :=
    fault_iff_raised_on_last_branch hwhole (faultAt_same "y") (faultAt_passes "y") ()
  have hlast : LastBranch (program [exprStmt (binary "+" (var "x") (var "y"))])
      ([] ++ [0] ++ [0] ++ [1]) := .step (.step (.step .root rfl) rfl) rfl
  have hraised : faults [0, 0, 1] ≠ none := by
    obtain ⟨s, s', hcall⟩ := hcalls.of_mem (List.mem_map.mpr ⟨_, hlast.mem_positions, rfl⟩)
    intro hnone
    have hanswer : (faultAt "y" (var "y") none s).1.2 = faults [0, 0, 1] :=
      congrArg (fun answer => answer.1.2) hcall
    rw [hnone] at hanswer
    exact absurd hanswer (Option.some_ne_none _)
  obtain ⟨e, he⟩ := Option.ne_none_iff_exists'.mp (hiff.mpr ⟨_, hlast, rfl, hraised⟩)
  exact ⟨hwhole, e, s', he ▸ hrun⟩

/-- The fault at `x` in `x + y` is raised beside the last branch, and it is lost. -/
theorem first_operand_fault_lost :
    ¬ ∀ (n : Node) (f : Visitor Unit) (s : Unit), Whole n → (∀ m e s, (f m e s).1.1 = m) →
      (∀ m e s, (f m (some e) s).1.2 ≠ none) → (∃ m, Occurs n m ∧ ∀ s, (f m none s).1.2 ≠ none) →
      ∃ answer s', traverse f n s = some (answer, s') ∧ answer.2 ≠ none := by
  intro h
  have hoccurs : Occurs (program [exprStmt (binary "+" (var "x") (var "y"))]) (var "x") :=
    .child (.child (.child .root (List.mem_cons_self ..)) (List.mem_cons_self ..))
      (List.mem_cons_self ..)
  obtain ⟨answer, s', hrun, hfault⟩ := h (program [exprStmt (binary "+" (var "x") (var "y"))])
    (faultAt "x") () (.of_areStatements rfl) (faultAt_same "x") (faultAt_passes "x")
    ⟨var "x", hoccurs, fun _ => Option.some_ne_none _⟩
  cases hrun
  exact hfault rfl

end RToJulia.Node
