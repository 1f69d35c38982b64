import Jmm.Proofs.Emission.Locals
import Mathlib.Data.Finset.Card

/-!
# Variable tables made by inserting

A table is made by inserting bindings one after the other (`VarTable.ofInserts`).  It records what
was inserted (`VarTable.Records`): its entries are the names in the order in which they were first
inserted, each with the binding it was first inserted with, and an insert keeps this up
(`VarTable.Records.insert`).  There is only one such table (`VarTable.Records.unique`).

Lookups, the size and the frame are then read off the entries (`VarTable.first_binding_wins`).  A
table that is kept in two parts, a hash map for lookups and the names for the order
(`VarTable.Indexed`), gives the same answers, as the parts stay in step (`VarTable.Indexed.InStep`).
-/

set_option autoImplicit false

namespace Jmm.Ollir
namespace VarTable

variable {t t' : VarTable} {bs : List (String × Binding)} {x : String} {b : Binding}

/-! ## What a table records -/

/-- The table of bindings that are inserted one after the other. -/
def ofInserts (bs : List (String × Binding)) : VarTable :=
  bs.foldl (fun t e ↦ t.insert e.1 e.2) {}

theorem ofInserts_concat (bs : List (String × Binding)) (e : String × Binding) :
    ofInserts (bs ++ [e]) = (ofInserts bs).insert e.1 e.2 :=
  List.foldl_concat ..

/-- The entries of a table are the names that were inserted, in the order of their first insertion,
each with the binding of that insertion. -/
structure Records (t : VarTable) (bs : List (String × Binding)) : Prop where
  names : ∀ x, x ∈ t.entries.map Prod.fst ↔ x ∈ bs.map Prod.fst
  order : (t.entries.map Prod.fst).Pairwise fun x y ↦
    (bs.map Prod.fst).idxOf x < (bs.map Prod.fst).idxOf y
  first : ∀ e ∈ t.entries, bs.find? (fun b ↦ b.1 == e.1) = some e

theorem records_empty : Records {} [] where
  names _ := Iff.rfl
  order := List.Pairwise.nil
  first _ he := absurd he List.not_mem_nil

theorem Records.nodup (h : t.Records bs) : (t.entries.map Prod.fst).Nodup :=
  h.order.imp fun {x y} hlt (heq : x = y) ↦ Nat.lt_irrefl _ (heq ▸ hlt)

/-- **An insert is recorded.**  The positions and bindings of the names before it stay as they are;
a name that is new comes after all of them. -/
theorem Records.insert (h : t.Records bs) (x : String) (b : Binding) :
    (t.insert x b).Records (bs ++ [(x, b)]) := by
  have hinserted : (bs ++ [(x, b)]).map Prod.fst = bs.map Prod.fst ++ [x] := List.map_append
  have horder : (t.entries.map Prod.fst).Pairwise fun y z ↦
      (bs.map Prod.fst ++ [x]).idxOf y < (bs.map Prod.fst ++ [x]).idxOf z := by
    refine h.order.imp_of_mem fun {y z} hy hz hlt ↦ ?_
    rwa [List.idxOf_append_of_mem ((h.names y).mp hy),
      List.idxOf_append_of_mem ((h.names z).mp hz)]
  have hfirst : ∀ e ∈ t.entries, (bs ++ [(x, b)]).find? (fun b ↦ b.1 == e.1) = some e := by
    intro e he
    rw [List.find?_append, h.first e he, Option.some_or]
  rw [VarTable.insert]
  split
  · rename_i hbound
    have hx : x ∈ bs.map Prod.fst := (h.names x).mp (contains_iff.mp hbound)
    refine ⟨fun y ↦ ?_, hinserted ▸ horder, hfirst⟩
    rw [h.names, hinserted, List.mem_append, List.mem_singleton]
    exact ⟨.inl, fun hy ↦ hy.elim id fun hy ↦ hy ▸ hx⟩
  · rename_i hnew
    have hx : x ∉ bs.map Prod.fst := fun hx ↦ hnew (contains_iff.mpr ((h.names x).mpr hx))
    have hnames : (t.entries ++ [(x, b)]).map Prod.fst = t.entries.map Prod.fst ++ [x] :=
      List.map_append
    refine ⟨fun y ↦ ?_, ?_, fun e he ↦ ?_⟩
    · rw [hnames, hinserted, List.mem_append, List.mem_append, h.names]
    · rw [hnames, hinserted, List.pairwise_append]
      refine ⟨horder, List.pairwise_singleton _ _, fun y hy z hz ↦ ?_⟩
      have hlt := List.idxOf_lt_length_iff.mpr ((h.names y).mp hy)
      rw [List.mem_singleton.mp hz, List.idxOf_append_of_notMem hx,
        List.idxOf_append_of_mem ((h.names y).mp hy)]
      exact Nat.lt_add_right _ hlt
    · rcases List.mem_append.mp he with he | he
      · exact hfirst e he
      · have hnone : bs.find? (fun b ↦ b.1 == x) = none :=
          List.find?_eq_none.mpr fun b hb heq ↦
            hx (List.mem_map.mpr ⟨b, hb, beq_iff_eq.mp heq⟩)
        rw [List.mem_singleton.mp he, List.find?_append, hnone, Option.none_or]
        exact List.find?_cons_of_pos (beq_self_eq_true x)

theorem records_ofInserts (bs : List (String × Binding)) : (ofInserts bs).Records bs := by
  induction bs using List.reverseRecOn with
  | nil => exact records_empty
  | append_singleton bs e ih =>
    rw [ofInserts_concat]
    exact ih.insert e.1 e.2

/-- The entries follow from the order of the names. -/
theorem Records.entries_eq (h : t.Records bs) :
    t.entries = (t.entries.map Prod.fst).filterMap fun x ↦ bs.find? fun b ↦ b.1 == x := by
  rw [List.filterMap_map]
  conv_lhs => rw [← List.filterMap_some (l := t.entries)]
  exact List.filterMap_congr fun e he ↦ (h.first e he).symm

/-- **What was inserted determines the table.** -/
theorem Records.unique (h : t.Records bs) (h' : t'.Records bs) : t = t' := by
  have hperm : (t.entries.map Prod.fst).Perm (t'.entries.map Prod.fst) :=
    (List.perm_ext_iff_of_nodup h.nodup h'.nodup).mpr fun x ↦
      (h.names x).trans (h'.names x).symm
  have hnames : t.entries.map Prod.fst = t'.entries.map Prod.fst :=
    hperm.eq_of_pairwise (fun _ _ _ _ hlt hgt ↦ absurd hgt (Nat.lt_asymm hlt)) h.order h'.order
  have hentries : t.entries = t'.entries := by rw [h.entries_eq, h'.entries_eq, hnames]
  exact congrArg VarTable.mk hentries

/-! ## Answers -/

theorem get?_eq_some_iff (h : (t.entries.map Prod.fst).Nodup) :
    t.get? x = some b ↔ (x, b) ∈ t.entries := by
  refine ⟨mem_of_get?, fun hmem ↦ ?_⟩
  have hbound : t.contains x = true := contains_iff.mpr (List.mem_map.mpr ⟨_, hmem, rfl⟩)
  rw [contains_eq_isSome] at hbound
  obtain ⟨b', hb'⟩ := Option.isSome_iff_exists.mp hbound
  -- the entry that is found has the same name
  have heq : (x, b') = (x, b) := List.inj_on_of_nodup_map h (mem_of_get? hb') hmem rfl
  rw [hb', (Prod.mk.inj heq).2]

theorem Records.size_eq (h : t.Records bs) : t.size = (bs.map Prod.fst).toFinset.card := by
  have hnames : (t.entries.map Prod.fst).toFinset = (bs.map Prod.fst).toFinset := by
    ext x
    rw [List.mem_toFinset, List.mem_toFinset, h.names]
  rw [← hnames, List.toFinset_card_of_nodup h.nodup, List.length_map, size]

/-- A frame has no slots if all entries are fields, and else reaches up to the largest slot of the
others. -/
theorem frameSize_cases (t : VarTable) :
    (∀ e ∈ t.entries, e.2.scope = .field) ∧ t.frameSize = 0
      ∨ ∃ e ∈ t.entries, e.2.scope ≠ .field ∧ t.frameSize = e.2.slot + 1
        ∧ ∀ e' ∈ t.entries, e'.2.scope ≠ .field → e'.2.slot ≤ e.2.slot := by
  have hfits := (t.frameSize_le_iff t.frameSize).mp (Nat.le_refl _)
  cases hsize : t.frameSize with
  | zero =>
    rw [hsize] at hfits
    refine .inl ⟨fun e he ↦ ?_, rfl⟩
    by_contra hfield
    exact absurd (hfits e he hfield) (Nat.not_lt_zero _)
  | succ k =>
    rw [hsize] at hfits
    -- a frame of one slot less does not fit, so some slot is the last one
    obtain ⟨e, he, hfield, hge⟩ : ∃ e ∈ t.entries, e.2.scope ≠ .field ∧ k ≤ e.2.slot := by
      by_contra hnone
      have hle : t.frameSize ≤ k := (t.frameSize_le_iff k).mpr fun e he hfield ↦
        Nat.lt_of_not_le fun hge ↦ hnone ⟨e, he, hfield, hge⟩
      omega
    have hlt := hfits e he hfield
    refine .inr ⟨e, he, hfield, by omega, fun e' he' hfield' ↦ ?_⟩
    have hlt' := hfits e' he' hfield'
    omega

/-! ## Tables in two parts -/

/-- A table in two parts: the bindings by name, and the names in the order in which they were
bound. -/
structure Indexed where
  bindings : Std.HashMap String Binding := {}
  order : List String := []

namespace Indexed

/-- The binding of a name. -/
def get? (ix : Indexed) (name : String) : Option Binding := ix.bindings[name]?

/-- Whether a name is bound. -/
def contains (ix : Indexed) (name : String) : Bool := ix.bindings.contains name

/-- The table with a name bound, unless it is bound already. -/
def insert (ix : Indexed) (name : String) (b : Binding) : Indexed :=
  if ix.contains name then ix else ⟨ix.bindings.insert name b, ix.order ++ [name]⟩

/-- The number of names bound. -/
def size (ix : Indexed) : Nat := ix.order.length

/-- The names in order, each with its binding. -/
def entries (ix : Indexed) : List (String × Binding) :=
  ix.order.filterMap fun name ↦ (ix.get? name).map (Prod.mk name)

/-- The number of slots a frame needs.  The bindings are met in the order of the hash map. -/
def frameSize (ix : Indexed) : Nat :=
  ((ix.bindings.toList.filter fun e ↦ e.2.scope ≠ .field).map fun e ↦ e.2.slot + 1).max?.getD 0

/-- The table of bindings that are inserted one after the other. -/
def ofInserts (bs : List (String × Binding)) : Indexed :=
  bs.foldl (fun ix e ↦ ix.insert e.1 e.2) {}

variable {ix : Indexed}

/-- The two parts have the names and the bindings of a table. -/
structure InStep (ix : Indexed) (t : VarTable) : Prop where
  names : ix.order = t.entries.map Prod.fst
  lookup : ∀ x, ix.get? x = t.get? x

theorem InStep.contains (h : ix.InStep t) (x : String) : ix.contains x = t.contains x := by
  rw [contains_eq_isSome, ← h.lookup, Indexed.get?, Std.HashMap.isSome_getElem?_eq_contains,
    Indexed.contains]

/-- **An insert keeps the parts in step.** -/
theorem InStep.insert (h : ix.InStep t) (x : String) (b : Binding) :
    (ix.insert x b).InStep (t.insert x b) := by
  by_cases hbound : t.contains x = true
  · rwa [Indexed.insert, VarTable.insert, h.contains, if_pos hbound, if_pos hbound]
  · have hnew : t.contains x = false := Bool.eq_false_iff.mpr hbound
    have hinsert : ix.insert x b = ⟨ix.bindings.insert x b, ix.order ++ [x]⟩ := by
      rw [Indexed.insert, h.contains, if_neg hbound]
    refine ⟨?_, fun y ↦ ?_⟩
    · rw [hinsert, VarTable.insert, if_neg hbound, h.names, List.map_append]
      rfl
    · rw [hinsert, get?_insert_of_new hnew, ← h.lookup]
      exact Std.HashMap.getElem?_insert

theorem inStep_empty : InStep {} {} where
  names := rfl
  lookup _ := Std.HashMap.getElem?_empty

theorem inStep_ofInserts (bs : List (String × Binding)) :
    (ofInserts bs).InStep (VarTable.ofInserts bs) :=
  List.foldl_rel inStep_empty fun e _ _ _ h ↦ h.insert e.1 e.2

theorem InStep.entries_eq (h : ix.InStep t) (hnodup : (t.entries.map Prod.fst).Nodup) :
    ix.entries = t.entries := by
  rw [Indexed.entries, h.names, List.filterMap_map]
  conv_rhs => rw [← List.filterMap_some (l := t.entries)]
  refine List.filterMap_congr fun e he ↦ ?_
  rw [Function.comp_apply, h.lookup, (get?_eq_some_iff hnodup).mpr he]
  rfl

theorem frameSize_le_iff (ix : Indexed) (size : Nat) :
    ix.frameSize ≤ size
      ↔ ∀ e ∈ ix.bindings.toList, e.2.scope ≠ .field → e.2.slot < size := by
  have hmax : ∀ slots : List Nat, slots.max?.getD 0 ≤ size ↔ ∀ n ∈ slots, n ≤ size := by
    intro slots
    cases h : slots.max? with
    | none => simp [List.max?_eq_none_iff.mp h]
    | some n => exact List.max?_le_iff h
  rw [frameSize, hmax, List.forall_mem_map]
  simp only [List.mem_filter, decide_eq_true_eq, and_imp, Nat.succ_le_iff]

/-- The frame does not depend on the order in which the bindings are met. -/
theorem InStep.frameSize_eq (h : ix.InStep t) (hnodup : (t.entries.map Prod.fst).Nodup) :
    ix.frameSize = t.frameSize := by
  have hmem : ∀ e, e ∈ ix.bindings.toList ↔ e ∈ t.entries := fun e ↦ by
    rw [← get?_eq_some_iff hnodup, ← h.lookup]
    exact Std.HashMap.mem_toList_iff_getElem?_eq_some
  refine eq_of_forall_ge_iff fun size ↦ ?_
  rw [ix.frameSize_le_iff, t.frameSize_le_iff]
  exact forall_congr' fun e ↦ imp_congr_left (hmem e)

/-- Two tables answer alike. -/
structure Answers (ix : Indexed) (t : VarTable) : Prop where
  entries : ix.entries = t.entries
  lookup : ∀ x, ix.get? x = t.get? x
  contains : ∀ x, ix.contains x = t.contains x
  size : ix.size = t.size
  frameSize : ix.frameSize = t.frameSize

theorem InStep.answers (h : ix.InStep t) (hnodup : (t.entries.map Prod.fst).Nodup) :
    ix.Answers t where
  entries := h.entries_eq hnodup
  lookup := h.lookup
  contains := h.contains
  size := by rw [Indexed.size, h.names, List.length_map, VarTable.size]
  frameSize := h.frameSize_eq hnodup

end Indexed

/-! ## Tables of inserts -/

/-- **A name keeps the binding it was first inserted with.**  The table made by inserting bindings
lists every name once, in the order of the first insertions, and no other table does.  A lookup
finds what is listed, the size is the number of different names, and the frame ends with the largest
slot that is listed for a variable which is no field.  A table in two parts gives the same
answers. -/
theorem first_binding_wins (bs : List (String × Binding)) :
    let t := ofInserts bs
    t.Records bs
      ∧ (∀ t', t'.Records bs → t' = t)
      ∧ (t.entries.map Prod.fst).Nodup
      ∧ (∀ x b, t.get? x = some b ↔ (x, b) ∈ t.entries)
      ∧ (∀ x, t.contains x = true ↔ x ∈ t.entries.map Prod.fst)
      ∧ t.size = (bs.map Prod.fst).toFinset.card
      ∧ ((∀ e ∈ t.entries, e.2.scope = .field) ∧ t.frameSize = 0
        ∨ ∃ e ∈ t.entries, e.2.scope ≠ .field ∧ t.frameSize = e.2.slot + 1
          ∧ ∀ e' ∈ t.entries, e'.2.scope ≠ .field → e'.2.slot ≤ e.2.slot)
      ∧ (Indexed.ofInserts bs).Answers t := by
  intro t
  have hrecords : t.Records bs := records_ofInserts bs
  refine ⟨hrecords, fun _ h ↦ h.unique hrecords, hrecords.nodup, fun x b ↦ ?_,
    fun _ ↦ contains_iff, hrecords.size_eq, t.frameSize_cases, ?_⟩
  · exact get?_eq_some_iff hrecords.nodup
  · exact (Indexed.inStep_ofInserts bs).answers hrecords.nodup

-- the second binding of `a` has no effect, and the field takes no slot
example :
    let t := ofInserts [("this", ⟨.receiver, 0, .named "A"⟩), ("a", ⟨.parameter, 1, .int32⟩),
      ("t", ⟨.local, 2, .int32⟩), ("a", ⟨.local, 9, .boolean⟩), ("total", ⟨.field, 9, .int32⟩)]
    t.entries.map (fun e ↦ (e.1, e.2.slot)) = [("this", 0), ("a", 1), ("t", 2), ("total", 9)]
      ∧ t.size = 4 ∧ t.frameSize = 3 := by
  decide

end VarTable
end Jmm.Ollir
