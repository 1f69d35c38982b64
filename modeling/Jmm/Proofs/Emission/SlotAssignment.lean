import Jmm.Proofs.Emission.Faults
import Jmm.Proofs.Emission.Operations

/-!
# Slot assignment

`Class.assignSlots` gives a variable table to every method that has none and leaves the others as
they are.  What such a table has to provide is collected in `Method.Allocates`: names have the slots
from zero on in the order of the table, counted in 16 bits, the receiver of an instance method comes
first and the parameters after it, and every variable of an instruction is bound, to a slot of its
own while there are enough of them.

Emission asks for the slots of variables in operands only, and fails for want of one only there
(`Emitter.blames_items`), so code with such a table is never stopped by a variable
(`assignSlots_allocates`).
-/

set_option autoImplicit false

namespace Jmm

namespace Ollir

/-! ## Parameters -/

namespace VarTable

variable {t : VarTable} {x : String}

theorem declare_of_not_contains (h : t.contains x = false) (scope : VarScope) (type : Ty) :
    t.declare x scope type = ⟨t.entries ++ [(x, ⟨scope, t.size % UInt16.size, type⟩)]⟩ := by
  rw [declare, insert, h]
  rfl

theorem get?_declare_self (h : t.contains x = false) (scope : VarScope) (type : Ty) :
    (t.declare x scope type).get? x = some ⟨scope, t.size % UInt16.size, type⟩ := by
  rw [declare, get?_insert_of_new h, if_pos (beq_self_eq_true x)]

theorem contains_declare_of_ne {y : String} (h : t.contains x = false) (hne : x ≠ y)
    (scope : VarScope) (type : Ty) : (t.declare y scope type).contains x = false := by
  rw [declare, insert]
  split
  · exact h
  · rw [Bool.eq_false_iff, Ne, contains_iff] at h ⊢
    simpa [hne] using h

/-- **Parameters with different names take the next slots**, in their order. -/
theorem get?_addParams {ps : List (String × Ty)} (hnodup : (ps.map Prod.fst).Nodup)
    (hnew : ∀ p ∈ ps, t.contains p.1 = false) {i : Nat} {p : String × Ty} (hp : ps[i]? = some p) :
    ((ps.map fun p ↦ Operand.var p.1 p.2).foldl addParam t).get? p.1
      = some ⟨.parameter, (t.size + i) % UInt16.size, p.2⟩ := by
  induction ps generalizing t i with
  | nil => simp at hp
  | cons first rest ih =>
    rw [List.map_cons, List.nodup_cons] at hnodup
    have hfirst := hnew first List.mem_cons_self
    rw [List.map_cons, List.foldl_cons, addParam]
    cases i with
    | zero =>
      obtain rfl : first = p := by simpa using hp
      -- the parameters that follow keep the binding
      refine List.foldlRecOn (motive := fun t' ↦ get? t' first.1 = some _) _ _
        (get?_declare_self hfirst _ _) fun t' ht' o _ ↦ ?_
      cases o with
      | var y type => exact get?_declare ht' y _ _
      | _ => exact ht'
    | succ i =>
      have hsize : (t.declare first.1 .parameter first.2).size = t.size + 1 := by
        rw [declare_of_not_contains hfirst, size, List.length_append]
        rfl
      have hrest : ∀ q ∈ rest, (t.declare first.1 .parameter first.2).contains q.1 = false := by
        intro q hq
        refine contains_declare_of_ne (hnew q (List.mem_cons_of_mem _ hq)) (fun hname ↦ ?_) _ _
        exact hnodup.1 (hname ▸ List.mem_map_of_mem hq)
      rw [ih hnodup.2 hrest hp, hsize, Nat.add_right_comm, Nat.add_assoc]

end VarTable

/-! ## Tables that provide for a method -/

/-- A variable table provides for a method of a class. -/
structure Method.Allocates (className : String) (m : Method) (t : VarTable) : Prop where
  /-- The entry at a position of the table has the slot of that number, counted in 16 bits. -/
  counted : ∀ (i : Nat) (e : String × Binding), t.entries[i]? = some e → e.2.slot = i % UInt16.size
  /-- If there are slots enough, it has the slot of that number. -/
  dense : t.size ≤ UInt16.size →
    ∀ (i : Nat) (e : String × Binding), t.entries[i]? = some e → e.2.slot = i
  /-- No name is bound twice, and if there are slots enough, then no two names share one. -/
  nodup : (t.entries.map Prod.fst).Nodup
  injective : t.size ≤ UInt16.size →
    ∀ x y b b', t.get? x = some b → t.get? y = some b' → b.slot = b'.slot → x = y
  /-- The receiver of an instance method has the first slot. -/
  receiver : m.isStatic = false → t.get? receiverName = some ⟨.receiver, 0, .named className⟩
  /-- Parameters that are variables with different names have the slots that follow, in order. -/
  params : ∀ ps : List (String × Ty), m.params = ps.map (fun p ↦ .var p.1 p.2) →
    (ps.map Prod.fst).Nodup → (m.isStatic = false → receiverName ∉ ps.map Prod.fst) →
    ∀ i p, ps[i]? = some p →
      t.get? p.1 = some ⟨.parameter, ((if m.isStatic then 0 else 1) + i) % UInt16.size, p.2⟩
  /-- Every variable of an instruction, however deep it stands in it, is bound, and not as a
  field. -/
  bound : ∀ i ∈ m.instrs, ∀ o ∈ i.operands, ∀ x ∈ o.reads,
    ∃ b, t.get? x = some b ∧ b.scope ≠ .field

theorem Method.get?_param_table (className : String) {m : Method} {ps : List (String × Ty)}
    (hparams : m.params = ps.map fun p ↦ .var p.1 p.2) (hnodup : (ps.map Prod.fst).Nodup)
    (hreceiver : m.isStatic = false → receiverName ∉ ps.map Prod.fst) {i : Nat} {p : String × Ty}
    (hp : ps[i]? = some p) :
    (m.table className).get? p.1
      = some ⟨.parameter, ((if m.isStatic then 0 else 1) + i) % UInt16.size, p.2⟩ := by
  rw [table, hparams]
  refine VarTable.addInstrs_induction (P := fun t ↦ t.get? p.1 = some _)
    (fun t y type ht ↦ VarTable.get?_declare ht y _ _) m.instrs ?_
  cases hstatic : m.isStatic with
  | true => exact VarTable.get?_addParams hnodup (fun _ _ ↦ rfl) hp
  | false =>
    refine VarTable.get?_addParams hnodup (fun q hq ↦ ?_) hp
    have hne : q.1 ≠ receiverName := fun hname ↦
      hreceiver hstatic (hname ▸ List.mem_map_of_mem hq)
    exact VarTable.contains_declare_of_ne rfl hne _ _

/-- **The table of a method provides for it.** -/
theorem Method.allocates_table (className : String) (m : Method) :
    m.Allocates className (m.table className) where
  counted := (m.isDense_table className).slot
  dense hsize _ _ := (m.isDense_table className).slot_eq hsize
  nodup := (m.isDense_table className).nodup
  injective hsize _ _ _ _ := (m.isDense_table className).slot_inj hsize
  receiver := m.get?_receiver_table className
  params _ hparams hnodup hreceiver _ _ := m.get?_param_table className hparams hnodup hreceiver
  bound i hi o ho x hx := by
    have hcontains := m.contains_table className hi ho hx
    rw [VarTable.contains_eq_isSome] at hcontains
    obtain ⟨b, hb⟩ := Option.isSome_iff_exists.mp hcontains
    exact ⟨b, hb, (m.isDense_table className).scope _ (VarTable.mem_of_get? hb)⟩

/-- Done twice, it does no more than once: a table does not depend on the empty one it replaces. -/
theorem Method.assignSlots_assignSlots (className : String) (m : Method) :
    (m.assignSlots className).assignSlots className = m.assignSlots className := by
  by_cases hempty : m.vars.isEmpty = true
  · have hmade : m.assignSlots className = { m with vars := m.table className } := if_pos hempty
    rw [hmade]
    exact ite_self _
  · have hkept : m.assignSlots className = m := if_neg hempty
    rw [hkept, hkept]

theorem Class.assignSlots_assignSlots (c : Class) : c.assignSlots.assignSlots = c.assignSlots := by
  rw [assignSlots, assignSlots, List.map_map]
  exact congrArg (fun ms ↦ { c with methods := ms })
    (List.map_congr_left fun m _ ↦ Method.assignSlots_assignSlots c.name m)

end Ollir

/-- A table that provides for a method binds the variables of its instructions. -/
theorem Ollir.Method.Allocates.binds {className : String} {m : Method} {t : VarTable}
    (h : m.Allocates className t) (unit : Class) (fusion : Bool) :
    ∀ i ∈ m.instrs, ∀ o ∈ i.operands, Jasmin.Emitter.Binds ⟨unit, t, fusion⟩ o := by
  intro i hi o ho x hx
  obtain ⟨b, hb, hscope⟩ := h.bound i hi o ho x hx
  simp [Jasmin.Emitter.slot, hb, hscope, Except.isOk, Except.toBool]

namespace Ollir

/-- **Slot assignment provides for every method.**  It changes nothing but the tables of methods
that have none, and done twice it does no more than once.  A table it makes gives the entries the
slots from zero on in their order, counted in 16 bits, so that no two of up to 65536 names share
one, puts the receiver and the parameters first, and binds every variable that occurs in an
instruction.  So no method that is given a table fails to be emitted because a variable has no slot
or is a field. -/
theorem assignSlots_allocates (c : Class) :
    c.assignSlots.assignSlots = c.assignSlots
      ∧ ∀ (k : Nat) (m : Method), c.methods[k]? = some m →
        ∃ t : VarTable, c.assignSlots.methods[k]? = some { m with vars := t }
          ∧ (m.vars.isEmpty = false → t = m.vars)
          ∧ (m.vars.isEmpty = true → m.Allocates c.name t
            ∧ ∀ unit fusion n x,
              Jasmin.emitMethod unit fusion { m with vars := t } n ≠ .error (.unboundVariable x)
              ∧ Jasmin.emitMethod unit fusion { m with vars := t } n
                ≠ .error (.fieldAsLocal x)) := by
  refine ⟨c.assignSlots_assignSlots, fun k m hm ↦ ?_⟩
  have hslots := Class.getElem?_assignSlots hm
  rw [Method.assignSlots] at hslots
  by_cases hempty : m.vars.isEmpty = true
  · rw [if_pos hempty] at hslots
    have hallocates := m.allocates_table c.name
    refine ⟨_, hslots, fun hfull ↦ absurd hempty (by rw [hfull]; decide), fun _ ↦
      ⟨hallocates, fun unit fusion n x ↦ ⟨fun hfault ↦ ?_, fun hfault ↦ ?_⟩⟩⟩
    · exact absurd (Jasmin.variable?_eq_none_of_emitMethod (hallocates.binds unit fusion) hfault)
        (Option.some_ne_none x)
    · exact absurd (Jasmin.variable?_eq_none_of_emitMethod (hallocates.binds unit fusion) hfault)
        (Option.some_ne_none x)
  · rw [if_neg hempty] at hslots
    exact ⟨m.vars, hslots, fun _ ↦ rfl, fun hempty' ↦ absurd hempty' hempty⟩

/-- The statement for a class with two methods.  The first one has no table and stores `a` plus an
element of `w` at position `i` in `t`; the second one comes with a table, which binds its variable
to slot seven. -/
theorem assignSlots_allocates_element :
    let x (name : String) : Operand := .var name .int32
    let sum : Instr := .binary .add (x "a") (.element "w" (x "i") .int32) .int32
    let f : Method :=
      { name := "f", params := [x "a", .var "v" .intArray], returns := .int32,
        instrs := [.assign (x "t") .int32 sum, .ret .int32 (some (x "t"))] }
    let g : Method :=
      { name := "g", isStatic := true, returns := .int32, instrs := [.ret .int32 (some (x "a"))],
        vars := ⟨[("a", ⟨.local, 7, .int32⟩)]⟩ }
    let c : Class := { name := "A", methods := [f, g] }
    ∃ t : VarTable, c.assignSlots.methods = [{ f with vars := t }, g]
      ∧ t.entries.map (fun e ↦ (e.1, e.2.slot))
        = [("this", 0), ("a", 1), ("v", 2), ("t", 3), ("w", 4), ("i", 5)]
      ∧ t.get? "v" = some ⟨.parameter, 2, .intArray⟩ ∧ (∃ b, t.get? "i" = some b ∧ b.slot = 5)
      ∧ (∀ n name, Jasmin.emitMethod c true { f with vars := t } n
        ≠ .error (.unboundVariable name))
      ∧ c.assignSlots.assignSlots = c.assignSlots := by
  intro x sum f g c
  obtain ⟨hagain, hmethods⟩ := assignSlots_allocates c
  obtain ⟨t, ht, _, hmade⟩ := hmethods 0 f rfl
  obtain ⟨t', ht', hkept, _⟩ := hmethods 1 g rfl
  obtain rfl := hkept rfl
  obtain ⟨hallocates, hemit⟩ := hmade rfl
  have hentries : (c.assignSlots.methods[0]?.map fun m ↦ m.vars.entries.map
      fun e ↦ (e.1, e.2.slot)) = some
        [("this", 0), ("a", 1), ("v", 2), ("t", 3), ("w", 4), ("i", 5)] := by decide
  rw [ht] at hentries
  have hentries : t.entries.map (fun e ↦ (e.1, e.2.slot))
      = [("this", 0), ("a", 1), ("v", 2), ("t", 3), ("w", 4), ("i", 5)] :=
    Option.some.inj hentries
  have hv := hallocates.params [("a", .int32), ("v", .intArray)] rfl (by decide)
    (fun _ ↦ by decide) 1 ("v", .intArray) rfl
  obtain ⟨b, hb, _⟩ := hallocates.bound (.assign (x "t") .int32 sum) List.mem_cons_self
    (.element "w" (x "i") .int32) (by decide) "i" (by decide)
  have hslot : ("i", b.slot) ∈ t.entries.map fun e ↦ (e.1, e.2.slot) :=
    List.mem_map.mpr ⟨_, VarTable.mem_of_get? hb, rfl⟩
  rw [hentries] at hslot
  refine ⟨t, ?_, hentries, hv, ⟨b, hb, by simpa using hslot⟩,
    fun n name ↦ (hemit c true n name).1, hagain⟩
  exact congrArg₂ (fun m m' ↦ [m, m']) (Option.some.inj ht) (Option.some.inj ht')

end Ollir
end Jmm
