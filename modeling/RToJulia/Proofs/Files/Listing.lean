import Mathlib.Data.List.Basic
import RToJulia.Proofs.Files.Deliveries

/-! # The sources of a directory

The paths of the R files in a directory are listed in the order of their bytes.  Each
one leads to its file, and taking some of the files away takes away their paths.
-/

namespace RToJulia

open Text RToJulia.Path

/-! ## The order of paths -/

theorem inOrder_total (s t : Bytes) : (inOrder s t || inOrder t s) = true := by
  induction s generalizing t with
  | nil => simp [inOrder]
  | cons a s ih =>
      cases t with
      | nil => simp [inOrder]
      | cons b t =>
          have hrest := ih t
          simp only [inOrder, Bool.or_eq_true, Bool.and_eq_true, decide_eq_true_eq,
            beq_iff_eq] at hrest ⊢
          rcases UInt8.lt_or_le a b with h | h
          · exact .inl (.inl h)
          · rcases UInt8.lt_or_eq_of_le h with h | rfl
            · exact .inr (.inl h)
            · exact hrest.imp (fun h => .inr ⟨rfl, h⟩) (fun h => .inr ⟨rfl, h⟩)

theorem inOrder_trans (s t u : Bytes) (hst : inOrder s t = true) (htu : inOrder t u = true) :
    inOrder s u = true := by
  induction s generalizing t u with
  | nil => rfl
  | cons a s ih =>
      cases t with
      | nil => cases hst
      | cons b t =>
          cases u with
          | nil => cases htu
          | cons c u =>
              simp only [inOrder, Bool.or_eq_true, Bool.and_eq_true, decide_eq_true_eq,
                beq_iff_eq] at hst htu ⊢
              rcases hst with hab | ⟨rfl, hst⟩
              · rcases htu with hbc | ⟨rfl, -⟩
                · exact .inl (UInt8.lt_trans hab hbc)
                · exact .inl hab
              · rcases htu with hac | ⟨rfl, htu⟩
                · exact .inl hac
                · exact .inr ⟨rfl, ih t u hst htu⟩

theorem inOrder_antisymm (s t : Bytes) (hst : inOrder s t = true) (hts : inOrder t s = true) :
    s = t := by
  induction s generalizing t with
  | nil =>
      cases t with
      | nil => rfl
      | cons b t => cases hts
  | cons a s ih =>
      cases t with
      | nil => cases hst
      | cons b t =>
          simp only [inOrder, Bool.or_eq_true, Bool.and_eq_true, decide_eq_true_eq,
            beq_iff_eq] at hst hts
          rcases hst with hab | ⟨rfl, hst⟩
          · rcases hts with hba | ⟨rfl, -⟩
            · exact absurd (UInt8.lt_trans hab hba) (UInt8.lt_irrefl a)
            · exact absurd hab (UInt8.lt_irrefl _)
          · rcases hts with haa | ⟨-, hts⟩
            · exact absurd haa (UInt8.lt_irrefl a)
            · rw [ih t hst hts]

theorem inOrder_append (p s t : Bytes) : inOrder (p ++ s) (p ++ t) = inOrder s t := by
  induction p with
  | nil => rfl
  | cons b p ih => simp [inOrder, ih]

/-- Some of the paths in order are some of all paths in order. -/
theorem mergeSort_filter (keep : Bytes → Bool) (paths : List Bytes) :
    (paths.filter keep).mergeSort inOrder = (paths.mergeSort inOrder).filter keep := by
  have hsorted (l : List Bytes) := List.pairwise_mergeSort inOrder_trans inOrder_total l
  refine List.Perm.eq_of_pairwise (fun a b _ _ => inOrder_antisymm a b) (hsorted _)
    ((hsorted paths).filter keep) ?_
  exact (List.mergeSort_perm _ _).trans ((List.mergeSort_perm _ _).symm.filter keep)

/-! ## Listed sources -/

namespace Disk

/-- A disk of files and directories with distinct places, whose paths start at the root or at the
current directory. -/
structure Proper (d : Disk) : Prop where
  home : d.home = []
  distinct : (d.entries.map Prod.fst).Nodup
  named : ∀ x ∈ d.entries, ∀ c ∈ x.1, IsFileName c

variable {d : Disk} {place : Location}

theorem list_ok {p : Bytes} {names : List (Bytes × Bool)} :
    d.list p = .ok names ↔ ∃ place, d.locate p = .ok place ∧
      d.entry? place = some .directory ∧ names = d.children place := by
  unfold list
  cases d.locate p with
  | error reason => simp
  | ok place =>
      cases he : d.entry? place with
      | none => simp [he]
      | some e => cases e <;> simp [he, eq_comm]

theorem lookup_of_mem {entries : List (Location × Entry)} {e : Entry}
    (h : (entries.map Prod.fst).Nodup) (hmem : (place, e) ∈ entries) :
    entries.lookup place = some e := by
  induction entries with
  | nil => cases hmem
  | cons x entries ih =>
      obtain ⟨found, e'⟩ := x
      rw [List.map_cons, List.nodup_cons] at h
      rw [lookup_cons]
      rcases List.mem_cons.mp hmem with heq | hrest
      · cases heq
        rw [if_pos rfl]
      · have hne : place ≠ found := by
          intro heq
          exact h.1 (List.mem_map.mpr ⟨_, hrest, heq⟩)
        rw [if_neg hne, ih h.2 hrest]

theorem Proper.entry?_eq (h : d.Proper) {name : Bytes} {e : Entry}
    (hmem : (place ++ [name], e) ∈ d.entries) : d.entry? (place ++ [name]) = some e := by
  unfold entry?
  rw [if_neg (by simp), lookup_of_mem h.distinct hmem]

theorem Proper.without (h : d.Proper) (gone : List Location) : (d.without gone).Proper := by
  refine ⟨h.home, ?_, fun x hx => h.named x (List.mem_filter.mp hx).1⟩
  exact h.distinct.sublist (List.filter_sublist.map Prod.fst)

end Disk

/-- The path under which an entry of a disk is listed as a source of a directory at a place. -/
def listedPath? (directory : Bytes) (place : Location) (x : Location × Entry) : Option Bytes :=
  match x.1.getLast? with
  | some name =>
      if x.1.dropLast = place ∧ x.2 ≠ .directory ∧ isSourceName name then
        some (join [directory, name])
      else none
  | none => none

theorem listedPath?_eq_some {directory p : Bytes} {place : Location} {x : Location × Entry} :
    listedPath? directory place x = some p ↔ ∃ name, x.1 = place ++ [name] ∧ x.2 ≠ .directory ∧
      isSourceName name = true ∧ p = join [directory, name] := by
  obtain ⟨found, e⟩ := x
  unfold listedPath?
  rcases List.eq_nil_or_concat found with rfl | ⟨front, last, rfl⟩
  · simp
  · simp only [List.concat_eq_append, List.getLast?_concat, List.dropLast_concat,
      Option.ite_none_right_eq_some, Option.some.injEq]
    constructor
    · rintro ⟨⟨rfl, hfile, hsource⟩, rfl⟩
      exact ⟨last, rfl, hfile, hsource, rfl⟩
    · rintro ⟨name, heq, hfile, hsource, rfl⟩
      obtain ⟨rfl, hname⟩ := List.append_inj' heq rfl
      cases hname
      exact ⟨⟨rfl, hfile, hsource⟩, rfl⟩

theorem sourcePaths_children (directory : Bytes) (d : Disk) (place : Location) :
    sourcePaths directory (d.children place) =
      (d.entries.filterMap (listedPath? directory place)).mergeSort inOrder := by
  unfold sourcePaths Disk.children
  congr 1
  rw [List.filter_filterMap, List.map_filterMap]
  refine List.filterMap_congr fun x _ => ?_
  obtain ⟨found, e⟩ := x
  unfold listedPath?
  cases hlast : found.getLast? with
  | none => simp [hlast]
  | some name =>
      by_cases hplace : found.dropLast = place <;> by_cases hfile : e = .directory <;>
        by_cases hsource : isSourceName name = true <;>
        simp [hlast, hplace, hfile, hsource, Option.filter_some]

/-- The listed paths of a directory. -/
theorem mem_sourcePaths {directory p : Bytes} {d : Disk} {place : Location} :
    p ∈ sourcePaths directory (d.children place) ↔
      ∃ name e, (place ++ [name], e) ∈ d.entries ∧ e ≠ .directory ∧ isSourceName name = true ∧
        p = join [directory, name] := by
  rw [sourcePaths_children, List.mem_mergeSort, List.mem_filterMap]
  constructor
  · rintro ⟨⟨found, e⟩, hmem, hpath⟩
    obtain ⟨name, rfl, hlisted⟩ := listedPath?_eq_some.mp hpath
    exact ⟨name, e, hmem, hlisted⟩
  · rintro ⟨name, e, hmem, hlisted⟩
    exact ⟨_, hmem, listedPath?_eq_some.mpr ⟨name, rfl, hlisted⟩⟩

theorem pairwise_sourcePaths (directory : Bytes) (names : List (Bytes × Bool)) :
    (sourcePaths directory names).Pairwise fun p q => inOrder p q = true :=
  List.pairwise_mergeSort inOrder_trans inOrder_total _

namespace Disk

variable {d : Disk} {place : Location} {directory : Bytes}

/-- A listed path leads to a source of its name in the directory. -/
theorem Proper.listed (h : d.Proper) (hplace : d.locate directory = .ok place)
    (hdir : d.entry? place = some .directory) {p : Bytes}
    (hp : p ∈ sourcePaths directory (d.children place)) :
    ∃ name source, p = lead directory ++ name ∧ d.HasSource p place name source := by
  obtain ⟨name, e, hmem, hfile, hsource, rfl⟩ := mem_sourcePaths.mp hp
  have hname : IsFileName name := h.named _ hmem name (by simp)
  have hlead := join_name (locate_ok.mp hplace).1 hname
  have hentry := h.entry?_eq hmem
  cases e with
  | directory => exact absurd rfl hfile
  | file source =>
      refine ⟨name, source, hlead, hname, hsource, ?_, ?_, hentry⟩
      · rw [hlead, base_lead directory hname]
      · exact locate_join h.home hplace hdir hname

/-- Where files are away, their paths are away from the listing. -/
theorem sourcePaths_without {gone : List Location} {keep : Bytes → Bool}
    (h : ∀ name e, (place ++ [name], e) ∈ d.entries → e ≠ .directory → isSourceName name = true →
      (place ++ [name] ∈ gone ↔ keep (join [directory, name]) = false)) :
    sourcePaths directory ((d.without gone).children place) =
      (sourcePaths directory (d.children place)).filter keep := by
  rw [sourcePaths_children, sourcePaths_children, ← mergeSort_filter]
  unfold Disk.without
  rw [List.filterMap_filter, List.filter_filterMap]
  congr 1
  refine List.filterMap_congr fun x hx => ?_
  cases hpath : listedPath? directory place x with
  | none => simp
  | some p =>
      obtain ⟨name, hfound, hfile, hsource, rfl⟩ := listedPath?_eq_some.mp hpath
      have hgone := h name x.2 (hfound ▸ hx) hfile hsource
      rw [hfound, Option.filter_some]
      by_cases hkeep : keep (join [directory, name]) = false
      · simp [hgone.mpr hkeep, hkeep]
      · have hkept : keep (join [directory, name]) = true := by simpa using hkeep
        simp [mt hgone.mp hkeep, hkept]

end Disk

end RToJulia
