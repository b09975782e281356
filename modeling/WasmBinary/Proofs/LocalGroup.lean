import Mathlib.Data.List.Chain
import WasmBinary.Proofs.Reader
import WasmBinary.Reading

/-!
Groups of locals stand for the locals that they were made from, they are runs as long as possible,
and they are read back from their bytes.
-/

namespace WasmBinary

namespace LocalGroup

/-! ## The locals of some groups -/

theorem expand_cons (type : ValueType) (groups : List LocalGroup) :
    expand (cons type groups) = type :: expand groups := by
  cases groups with
  | nil => rfl
  | cons group rest =>
      by_cases same : group.type = type
      · rw [cons, if_pos same, ← same]
        rfl
      · rw [cons, if_neg same]
        rfl

theorem expand_ofLocals (locals : List ValueType) : expand (ofLocals locals) = locals := by
  induction locals with
  | nil => rfl
  | cons type locals inductionHypothesis =>
      rw [ofLocals] at inductionHypothesis ⊢
      rw [List.foldr_cons, expand_cons, inductionHypothesis]

theorem ofLocals_injective {locals others : List ValueType}
    (same : ofLocals locals = ofLocals others) : locals = others := by
  rw [← expand_ofLocals locals, same, expand_ofLocals]

/-! ## Runs -/

/-- Groups that cannot be made longer: none is empty, and no two neighbours have the same type. -/
structure Maximal (groups : List LocalGroup) : Prop where
  nonempty : ∀ group ∈ groups, 0 < group.count
  alternate : groups.IsChain fun first second => first.type ≠ second.type

theorem maximal_nil : Maximal [] where
  nonempty := by simp
  alternate := .nil

/-- A local that joins the group of its neighbour, or else begins one, leaves maximal groups
maximal. -/
theorem maximal_cons {groups : List LocalGroup} (maximal : Maximal groups) (type : ValueType) :
    Maximal (cons type groups) := by
  obtain ⟨nonempty, alternate⟩ := maximal
  cases groups with
  | nil => exact ⟨by simp [cons], .singleton _⟩
  | cons group rest =>
      rw [List.forall_mem_cons] at nonempty
      by_cases same : group.type = type
      · -- The local joins the first group, whose neighbour stays the same.
        rw [cons, if_pos same, ← same]
        rw [List.isChain_cons] at alternate
        refine ⟨?_, List.isChain_cons.mpr alternate⟩
        rw [List.forall_mem_cons]
        exact ⟨Nat.succ_pos _, nonempty.2⟩
      · rw [cons, if_neg same]
        refine ⟨?_, List.isChain_cons_cons.mpr ⟨Ne.symm same, alternate⟩⟩
        rw [List.forall_mem_cons, List.forall_mem_cons]
        exact ⟨Nat.one_pos, nonempty⟩

theorem maximal_ofLocals (locals : List ValueType) : Maximal (ofLocals locals) := by
  induction locals with
  | nil => exact maximal_nil
  | cons type locals inductionHypothesis => exact maximal_cons inductionHypothesis type

/-! ## The reader -/

theorem inverts_readGroup : Reader.Inverts CodeEntry.readGroup Format.localGroup := by
  intro group rest
  have count := Reader.inverts_unsigned group.count (group.type.tag :: rest)
  rw [CodeEntry.readGroup, Format.localGroup, List.append_assoc, List.singleton_append, count]
  change (ValueType.ofTag? group.type.tag >>= _) = _
  rw [ValueType.ofTag?_tag]
  rfl

end LocalGroup

/-! ## The only groups

Main statement: groups that cannot be made longer are those of the locals that they stand for, no
grouping of these locals is shorter, and a loop over the locals leaves the same groups from either
end.
-/

namespace LocalGroup

/-! ### Runs of one type -/

theorem ofLocals_append (front back : List ValueType) :
    ofLocals (front ++ back) = front.foldr cons (ofLocals back) :=
  List.foldr_append

theorem cons_of_ne {type : ValueType} {groups : List LocalGroup}
    (differs : ∀ group ∈ groups.head?, type ≠ group.type) :
    cons type groups = ⟨type, 1⟩ :: groups := by
  cases groups with
  | nil => rfl
  | cons group rest => rw [cons, if_neg (differs group rfl).symm]

/-- A local stands in the first group, and it opens at most one. -/
theorem exists_cons_eq (type : ValueType) (groups : List LocalGroup) :
    ∃ count rest, cons type groups = ⟨type, count⟩ :: rest ∧ rest.length ≤ groups.length := by
  cases groups with
  | nil => exact ⟨1, [], rfl, Nat.le_refl 0⟩
  | cons group rest =>
      by_cases same : group.type = type
      · exact ⟨group.count + 1, rest, if_pos same, Nat.le_succ _⟩
      · exact ⟨1, group :: rest, if_neg same, Nat.le_refl _⟩

theorem foldr_cons_replicate (type : ValueType) (more count : Nat) (rest : List LocalGroup) :
    (List.replicate more type).foldr cons (⟨type, count⟩ :: rest) =
      ⟨type, count + more⟩ :: rest := by
  induction more with
  | zero => rfl
  | succ more inductionHypothesis =>
      rw [List.replicate_succ, List.foldr_cons, inductionHypothesis, cons, if_pos rfl]
      rfl

/-! ### Uniqueness -/

/-- Maximal groups are those of the locals that they stand for. -/
theorem ofLocals_expand {groups : List LocalGroup} (maximal : Maximal groups) :
    ofLocals (expand groups) = groups := by
  induction groups with
  | nil => rfl
  | cons group rest inductionHypothesis =>
      obtain ⟨nonempty, alternate⟩ := maximal
      rw [List.forall_mem_cons] at nonempty
      rw [List.isChain_cons] at alternate
      have isRest := inductionHypothesis ⟨nonempty.2, alternate.2⟩
      obtain ⟨type, count⟩ := group
      obtain ⟨more, rfl⟩ := Nat.exists_eq_succ_of_ne_zero (Nat.ne_of_gt nonempty.1)
      -- The last local of the run opens the group, and those in front of it join.
      rw [expand, List.flatMap_cons, ← expand, ofLocals_append, isRest, List.replicate_succ',
        List.foldr_append, List.foldr_cons, List.foldr_nil, cons_of_ne alternate.1,
        foldr_cons_replicate, Nat.add_comm]

/-- The groups of some locals are the only maximal ones that stand for them. -/
theorem eq_ofLocals_iff (groups : List LocalGroup) (locals : List ValueType) :
    expand groups = locals ∧ Maximal groups ↔ groups = ofLocals locals := by
  constructor
  · intro runs
    obtain ⟨same, maximal⟩ := runs
    rw [← same, ofLocals_expand maximal]
  · intro same
    rw [same]
    exact ⟨expand_ofLocals locals, maximal_ofLocals locals⟩

/-- No other grouping of the same locals is shorter, however its groups are chosen. -/
theorem length_ofLocals_expand_le (groups : List LocalGroup) :
    (ofLocals (expand groups)).length ≤ groups.length := by
  induction groups with
  | nil => exact Nat.le_refl 0
  | cons group rest inductionHypothesis =>
      obtain ⟨type, count⟩ := group
      rw [expand, List.flatMap_cons, ← expand, ofLocals_append, List.length_cons]
      cases count with
      | zero => exact Nat.le_succ_of_le inductionHypothesis
      | succ more =>
          obtain ⟨count, tail, isCons, short⟩ := exists_cons_eq type (ofLocals (expand rest))
          rw [List.replicate_succ', List.foldr_append, List.foldr_cons, List.foldr_nil, isCons,
            foldr_cons_replicate, List.length_cons]
          exact Nat.succ_le_succ (Nat.le_trans short inductionHypothesis)

/-! ### Either end -/

theorem expand_reverse (groups : List LocalGroup) :
    expand groups.reverse = (expand groups).reverse := by
  have each : (fun group : LocalGroup => List.replicate group.count group.type) =
      List.reverse ∘ fun group => List.replicate group.count group.type := by
    funext group
    exact List.reverse_replicate.symm
  rw [expand, expand, List.reverse_flatMap, ← each]

theorem maximal_reverse {groups : List LocalGroup} (maximal : Maximal groups) :
    Maximal groups.reverse where
  nonempty := by
    intro group member
    exact maximal.nonempty group (List.mem_reverse.mp member)
  alternate := by
    rw [List.isChain_reverse]
    exact maximal.alternate.imp fun _ _ => Ne.symm

/-- Grouping does not depend on the end from which the locals are taken. -/
theorem ofLocals_reverse (locals : List ValueType) :
    ofLocals locals.reverse = (ofLocals locals).reverse := by
  symm
  rw [← eq_ofLocals_iff, expand_reverse, expand_ofLocals]
  exact ⟨rfl, maximal_reverse (maximal_ofLocals locals)⟩

/-- Adding a local at the end is adding it in front, read backwards. -/
theorem toList_push (groups : Array LocalGroup) (type : ValueType) :
    (push groups type).toList.reverse = cons type groups.toList.reverse := by
  by_cases empty : groups.size = 0
  · rw [Array.eq_empty_of_size_eq_zero empty]
    rfl
  · obtain ⟨front, group, rfl⟩ := Array.eq_push_of_size_ne_zero empty
    rw [push, Array.back?_push]
    by_cases same : group.type = type <;> simp [cons, same]

/-- The loop over the reversed locals leaves the groups of the locals, back to front. -/
theorem toList_scan_reverse (locals : List ValueType) :
    (scan locals).toList.reverse = ofLocals locals.reverse := by
  have loop (groups : Array LocalGroup) :
      (locals.foldl push groups).toList.reverse =
        locals.reverse.foldr cons groups.toList.reverse := by
    induction locals generalizing groups with
    | nil => rfl
    | cons type locals inductionHypothesis =>
        rw [List.foldl_cons, inductionHypothesis, toList_push, List.reverse_cons,
          List.foldr_append]
        rfl
  exact loop #[]

/-- The groups of some locals stand for them and are runs as long as possible; they are the only
such groups, and no groups that stand for the same locals are fewer. The locals in reverse have the
groups in reverse. A loop from the last local to the first leaves the groups in reverse, and a loop
from the first to the last leaves them as they are. -/
theorem ofLocals_canonical (locals : List ValueType) :
    expand (ofLocals locals) = locals ∧
      Maximal (ofLocals locals) ∧
      (∀ groups, expand groups = locals ∧ Maximal groups ↔ groups = ofLocals locals) ∧
      (∀ groups, (ofLocals (expand groups)).length ≤ groups.length) ∧
      ofLocals locals.reverse = (ofLocals locals).reverse ∧
      (scan locals.reverse).toList.reverse = ofLocals locals ∧
      (scan locals).toList = ofLocals locals := by
  have fromEnd := toList_scan_reverse locals.reverse
  rw [List.reverse_reverse] at fromEnd
  have fromStart := toList_scan_reverse locals
  rw [ofLocals_reverse, List.reverse_inj] at fromStart
  exact ⟨expand_ofLocals locals, maximal_ofLocals locals,
    fun groups => eq_ofLocals_iff groups locals, length_ofLocals_expand_le,
    ofLocals_reverse locals, fromEnd, fromStart⟩

-- A type that comes back opens a group of its own.
example : ofLocals [.i32, .i32, .f64, .i32] = [⟨.i32, 2⟩, ⟨.f64, 1⟩, ⟨.i32, 1⟩] := by
  decide

end LocalGroup

end WasmBinary
