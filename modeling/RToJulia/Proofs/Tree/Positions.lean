import RToJulia.Proofs.Tree.Occurs

/-! # Positions in a tree

A position is the way to a node: the numbers of the children from the root on. Two nodes may
be equal, two positions are not, so that a node occurs as often as there are positions with it.
The positions of a tree are listed with children before parents and earlier siblings before
later ones.
-/

namespace RToJulia.Node

/-! ## Children -/

def ifThere (n : Node) : List Node :=
  if n.isGap then [] else [n]

theorem ifThere_of_ne {n : Node} (h : n ≠ gap) : n.ifThere = [n] := by
  cases n <;> first | rfl | exact absurd rfl h

theorem mem_ifThere {n c : Node} (h : c ∈ n.ifThere) : c = n := by
  unfold ifThere at h
  split at h
  · simp at h
  · simpa using h

theorem children_forLoop (name : Bytes) (start stop : Node) (body : Option (List Node)) :
    children (forLoop name start stop body) = start.ifThere ++ [stop, bodyNode body] := by
  cases start <;> rfl

theorem children_ret (value : Node) : children (ret value) = value.ifThere := by
  cases value <;> rfl

theorem sizeOf_bodyNode (body : Option (List Node)) : sizeOf (bodyNode body) = sizeOf body := by
  cases body <;> simp [bodyNode]

theorem sizeOf_child {n c : Node} (h : c ∈ n.children) : sizeOf c < sizeOf n := by
  cases n with
  | gap | var _ | int _ | float _ | string _ | bool _ => simp [children] at h
  | program ss | block ss | call _ ss =>
      have hlt := List.sizeOf_lt_of_mem h
      simp only [children] at hlt
      simp only [program.sizeOf_spec, block.sizeOf_spec, call.sizeOf_spec]
      omega
  | ifElse cond yes no =>
      have hyes := sizeOf_bodyNode yes
      simp only [children, List.mem_cons, Option.mem_toList, Option.map_eq_some_iff] at h
      rcases h with rfl | rfl | ⟨ss, rfl, rfl⟩ <;> simp +arith [hyes]
  | forLoop name start stop body =>
      have hbody := sizeOf_bodyNode body
      rw [children_forLoop] at h
      simp only [List.mem_append, List.mem_cons, List.not_mem_nil, or_false] at h
      rcases h with h | rfl | rfl
      · rw [mem_ifThere h]
        simp +arith
      all_goals simp +arith [hbody]
  | ret value =>
      rw [children_ret] at h
      rw [mem_ifThere h]
      simp
  | whileLoop cond body | function _ _ body | operator _ _ _ body =>
      have hbody := sizeOf_bodyNode body
      simp only [children, List.mem_cons, List.not_mem_nil, or_false] at h
      rcases h with rfl | rfl <;> simp +arith [hbody]
  | _ =>
      simp only [children, List.mem_cons, List.not_mem_nil, or_false] at h
      rcases h with rfl | rfl | rfl <;> simp +arith

/-- What holds of a node when it holds of its children holds of every node. -/
theorem children_induction {P : Node → Prop} (h : ∀ n, (∀ c ∈ n.children, P c) → P n) (n : Node) :
    P n :=
  h n fun c _ => children_induction h c
termination_by sizeOf n
decreasing_by exact sizeOf_child ‹_›

/-! ## Trees without missing children -/

theorem Occurs.trans {root n m : Node} (hn : Occurs root n) (hm : Occurs n m) : Occurs root m := by
  induction hm with
  | root => exact hn
  | child _ mem ih => exact .child ih mem

/-- No child is missing, but where a place is left open on purpose. -/
def Whole (n : Node) : Prop :=
  ∀ m, Occurs n m → m ≠ gap

theorem Whole.ne_gap {n : Node} (h : Whole n) : n ≠ gap :=
  h n .root

theorem Whole.child {n c : Node} (h : Whole n) (hc : c ∈ n.children) : Whole c :=
  fun m hm => h m (.trans (.child .root hc) hm)

/-! ## Positions -/

/-- The numbers of the children on the way to a node. -/
abbrev Position := List Nat

def at? : Node → Position → Option Node
  | n, [] => some n
  | n, i :: p => n.children[i]?.bind (at? · p)

def nodeAt (n : Node) (p : Position) : Node :=
  (n.at? p).getD gap

theorem at?_append (n : Node) (p q : Position) : n.at? (p ++ q) = (n.at? p).bind (at? · q) := by
  induction p generalizing n with
  | nil => rfl
  | cons i p ih =>
      rw [List.cons_append, at?, at?]
      cases n.children[i]? with
      | none => rfl
      | some c => exact ih c

theorem at?_cons {n c : Node} {i : Nat} (h : n.children[i]? = some c) (p : Position) :
    n.at? (i :: p) = c.at? p := by
  rw [at?, h]
  rfl

theorem at?_child {n m : Node} {p : Position} (h : n.at? p = some m) (i : Nat) :
    n.at? (p ++ [i]) = m.children[i]? := by
  rw [at?_append, h]
  change m.children[i]?.bind some = _
  cases m.children[i]? <;> rfl

/-- The positions of a tree, each behind all that lie below it. -/
def positions (n : Node) : List Position :=
  (n.children.attach.zipIdx.flatMap fun c => (positions c.1.1).map (c.2 :: ·)) ++ [[]]
termination_by sizeOf n
decreasing_by exact sizeOf_child c.1.2

theorem positions_eq (n : Node) :
    n.positions = (n.children.zipIdx.flatMap fun c => c.1.positions.map (c.2 :: ·)) ++ [[]] := by
  have hattach : n.children.zipIdx =
      n.children.attach.zipIdx.map fun c => (c.1.1, c.2) := by
    conv => lhs; rw [← List.attach_map_subtype_val n.children]
    rw [List.zipIdx_map]
    rfl
  rw [positions, hattach, List.flatMap_map]

/-- The first position comes earlier: it lies below the second, or where they part its child is
the earlier one. -/
inductive Position.Before : Position → Position → Prop
  | below (p : Position) (i : Nat) (q : Position) : Before (p ++ i :: q) p
  | left (p : Position) {i j : Nat} (h : i < j) (q r : Position) :
      Before (p ++ i :: q) (p ++ j :: r)

theorem Position.Before.cons {p q : Position} (h : Before p q) (i : Nat) :
    Before (i :: p) (i :: q) := by
  cases h with
  | below _ j q => exact .below (i :: _) j q
  | left p h q r => exact .left (i :: p) h q r

theorem mem_positions (n : Node) : ∀ p, p ∈ n.positions ↔ (n.at? p).isSome := by
  induction n using children_induction with
  | h n ih =>
  intro p
  rw [positions_eq, List.mem_append, List.mem_flatMap]
  cases p with
  | nil => simp [at?]
  | cons i p =>
      constructor
      · rintro (⟨⟨c, j⟩, hc, hp⟩ | hnil)
        · obtain ⟨q, hq, heq⟩ := List.mem_map.mp hp
          cases heq
          have hget := List.mk_mem_zipIdx_iff_getElem?.mp hc
          rw [at?_cons hget]
          exact (ih c (List.mem_of_getElem? hget) p).mp hq
        · simp at hnil
      · intro h
        cases hget : n.children[i]? with
        | none => simp [at?, hget] at h
        | some c =>
            rw [at?_cons hget] at h
            exact .inl ⟨(c, i), List.mk_mem_zipIdx_iff_getElem?.mpr hget,
              List.mem_map.mpr ⟨p, (ih c (List.mem_of_getElem? hget) p).mpr h, rfl⟩⟩

theorem pairwise_positions (n : Node) : n.positions.Pairwise Position.Before := by
  induction n using children_induction with
  | h n ih =>
  rw [positions_eq, List.pairwise_append]
  refine ⟨?_, List.pairwise_singleton _ _, ?_⟩
  · rw [List.pairwise_flatMap]
    constructor
    · intro c hc
      rw [List.pairwise_map]
      have hmem : c.1 ∈ n.children := List.fst_mem_of_mem_zipIdx hc
      exact (ih c.1 hmem).imp fun h => h.cons c.2
    · have hnumbered : n.children.zipIdx.Pairwise fun c d => c.2 < d.2 := by
        rw [← List.pairwise_map, List.zipIdx_map_snd]
        exact List.pairwise_lt_range'
      refine hnumbered.imp fun {c d} hlt p hp q hq => ?_
      obtain ⟨p, -, rfl⟩ := List.mem_map.mp hp
      obtain ⟨q, -, rfl⟩ := List.mem_map.mp hq
      exact .left [] hlt p q
  · intro p hp q hq
    obtain ⟨c, -, hp⟩ := List.mem_flatMap.mp hp
    obtain ⟨p, -, rfl⟩ := List.mem_map.mp hp
    cases List.mem_singleton.mp hq
    exact .below [] c.2 p

end RToJulia.Node
