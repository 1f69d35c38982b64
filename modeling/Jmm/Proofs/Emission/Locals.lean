import Jmm.Proofs.Emission.Operations
import Jmm.Proofs.Emission.SlotAssignment

/-!
# Locals of emitted code

Operations name locals by their slots.  In emitted code a slot is named because a variable of the
table has it, or because the receiver is loaded, which is slot 0 whatever the table says
(`slots_emitClass`).  The table of a static method binds parameters and locals only
(`Method.scope_table_of_isStatic`), so there slot 0 is that of a variable unless an instruction uses
the receiver.

The frame of a method is the smallest one that has the slots of its table and of the receiver
(`VarTable.frameSize_le_iff`), so it has all slots that are named (`localsLimit_covers_slots`).

Where every variable has one type in its method, the operations on a slot are of one family, that of
the type (`family_assemble`).
-/

set_option autoImplicit false

namespace Jmm

/-! ## The size of a frame -/

/-- A frame is large enough if and only if it has the slots of all variables that are no fields. -/
theorem Ollir.VarTable.frameSize_le_iff (t : VarTable) (size : Nat) :
    t.frameSize ≤ size ↔ ∀ e ∈ t.entries, e.2.scope ≠ .field → e.2.slot < size := by
  have hfold : ∀ (entries : List (String × Binding)) (n : Nat),
      entries.foldl (fun n e ↦ if e.2.scope = .field then n else max n (e.2.slot + 1)) n ≤ size
        ↔ n ≤ size ∧ ∀ e ∈ entries, e.2.scope ≠ .field → e.2.slot < size := by
    intro entries
    induction entries with
    | nil => simp
    | cons e entries ih =>
      intro n
      rw [List.foldl_cons, ih, List.forall_mem_cons]
      by_cases hfield : e.2.scope = .field
      · simp [hfield]
      · simp only [hfield, if_false, ne_eq, not_false_eq_true, true_implies, Nat.max_le,
          Nat.succ_le_iff, and_assoc]
  simp [frameSize, hfold]

theorem Ollir.VarTable.slot_lt_frameSize {t : VarTable} {x : String} {b : Binding}
    (hb : t.get? x = some b) (hfield : b.scope ≠ .field) : b.slot < t.frameSize :=
  (t.frameSize_le_iff t.frameSize).mp (Nat.le_refl _) _ (mem_of_get? hb) hfield

/-- Parameters with different names, and the receiver, have slots of their own in the table that a
method is given, if there are slots enough. -/
theorem Ollir.Method.length_params_le_frameSize (className : String) {m : Method}
    {ps : List (String × Ty)} (hparams : m.params = ps.map fun p ↦ .var p.1 p.2)
    (hnodup : (ps.map Prod.fst).Nodup)
    (hreceiver : m.isStatic = false → receiverName ∉ ps.map Prod.fst)
    (henough : ps.length + (if m.isStatic then 0 else 1) ≤ UInt16.size) :
    ps.length + (if m.isStatic then 0 else 1)
      ≤ max (m.table className).frameSize (if m.isStatic then 0 else 1) := by
  rcases List.eq_nil_or_concat ps with rfl | ⟨before, last, hlast⟩
  · rw [List.length_nil, Nat.zero_add]
    exact Nat.le_max_right _ _
  · -- the last parameter has the largest slot of all
    have hslot : ps[before.length]? = some last := by rw [hlast]; simp
    have hlength : ps.length = before.length + 1 := by rw [hlast]; simp
    have hlt : ((if m.isStatic then 0 else 1) + before.length) % UInt16.size
        < (m.table className).frameSize :=
      VarTable.slot_lt_frameSize (m.get?_param_table className hparams hnodup hreceiver hslot)
        fun hfield ↦ VarScope.noConfusion hfield
    rw [Nat.mod_eq_of_lt (by omega)] at hlt
    refine Nat.le_trans ?_ (Nat.le_max_left _ _)
    omega

/-! ## The receiver -/

/-- The names of a static method are bound as parameters and locals. -/
theorem Ollir.Method.scope_table_of_isStatic (className : String) {m : Method}
    (h : m.isStatic = true) {x : String} {b : Binding}
    (hb : (m.table className).get? x = some b) : b.scope = .parameter ∨ b.scope = .local := by
  have hentries : ∀ e ∈ (m.table className).entries,
      e.2.scope = .parameter ∨ e.2.scope = .local := by
    refine m.table_induction className
      (P := fun t ↦ ∀ e ∈ t.entries, e.2.scope = .parameter ∨ e.2.scope = .local) ?_
      fun t x scope type hscope ht ↦ ?_
    · rw [h]
      exact fun e he ↦ absurd he List.not_mem_nil
    · rw [VarTable.declare, VarTable.insert]
      split
      · exact ht
      · exact List.forall_mem_append.mpr ⟨ht, List.forall_mem_singleton.mpr hscope⟩
  exact hentries _ (VarTable.mem_of_get? hb)

/-- The receiver has its slot for itself: no variable of an instance method is called like it, and a
static method, which has no slot for it, does not use it. -/
def Ollir.Method.KeepsReceiver (m : Method) : Prop :=
  if m.isStatic then ∀ o ∈ m.instrs.flatMap Instr.operands, o.usesReceiver = false
  else ∀ v ∈ m.typedVars, v.1 ≠ receiverName

namespace Jasmin

open Ollir (Operand Instr Call Item VarTable instrsOf)

/-- The slot that a line names. -/
def Line.slot? : Line → Option Nat
  | op o => o.slot?
  | label _ => none

/-- The slots that lines name. -/
def slotsOf (lines : List Line) : List Nat := lines.filterMap Line.slot?

/-- The slots in code are those of variables, apart from slot 0 if one of the operands uses the
receiver. -/
def Emitter.Covers (e : Emitter) (os : List Operand) (code : List Step) : Prop :=
  ∀ s ∈ slotsOf (code.map Step.line),
    (∃ x, e.slot x = .ok s) ∨ s = 0 ∧ ∃ o ∈ os, o.usesReceiver = true

/-- The slot of a variable is that of its binding, which is not for a field. -/
theorem Emitter.slot_eq_ok_iff {e : Emitter} {x : String} {slot : Nat} :
    e.slot x = .ok slot ↔ ∃ b, e.vars.get? x = some b ∧ b.scope ≠ .field ∧ b.slot = slot := by
  rw [Emitter.slot]
  cases e.vars.get? x with
  | none => simp
  | some b => by_cases hfield : b.scope = .field <;> simp [hfield]

namespace Emitter

variable {e : Emitter} {os : List Operand} {code : List Step}

/-- **The slots of emitted code are those of variables**, apart from that of the receiver. -/
theorem covers_items {items : List Item} {n n' : Nat} (h : e.items items n = .ok (code, n'))
    (hos : ∀ i ∈ instrsOf items, i.operands ⊆ os) : e.Covers os code := by
  intro s hs
  obtain ⟨line, hline, hs⟩ := List.mem_filterMap.mp hs
  obtain ⟨step, hstep, rfl⟩ := List.mem_map.mp hline
  cases hop : step.line with
  | label name =>
    rw [hop] at hs
    cases hs
  | op o =>
    rw [hop] at hs
    have hslot : o.slot? = some s := hs
    rcases (allMade_items h step hstep o hop).slot_cases hslot with
      ⟨v, _, hv, _⟩ | ⟨hzero, _, o', ho, hreceiver⟩
    · exact .inl ⟨v.1, hv⟩
    · obtain ⟨i, hi, ho⟩ := List.mem_flatMap.mp ho
      exact .inr ⟨hzero, o', hos i hi ho, hreceiver⟩

end Emitter

/-! ## Methods -/

/-- **The slots in a method of a class that is emitted** are those of variables in its table that
are no fields, apart from slot 0 if the receiver occurs in the method.  Its frame has room for the
slots of the table, and for the receiver. -/
theorem slots_emitClass {unit : Ollir.Class} {fusion : Bool} {jc : Class}
    (h : emitClass fusion unit = .ok jc) {k : Nat} {m : Ollir.Method}
    (hm : unit.methods[k]? = some m) :
    ∃ jm, jc.methods[k]? = some jm
      ∧ jm.localsLimit = max m.vars.frameSize (if m.isStatic then 0 else 1)
      ∧ ∀ s ∈ slotsOf jm.lines,
        (∃ x b, m.vars.get? x = some b ∧ b.scope ≠ .field ∧ b.slot = s)
        ∨ s = 0 ∧ ∃ i ∈ m.instrs, ∃ o ∈ i.operands, o.usesReceiver = true := by
  obtain ⟨_, hmethods⟩ := emitClass_eq_ok h
  obtain ⟨jm, _, _, hjm, hemit⟩ := emitMethods_getElem? hmethods hm
  obtain ⟨steps, _, hsteps, hemit⟩ := Emit.bind_eq_ok_iff.mp hemit
  obtain ⟨rfl, _⟩ := Emit.pure_eq_ok_iff.mp hemit
  have hoperands : ∀ i ∈ instrsOf m.listing, i.operands ⊆ m.instrs.flatMap Instr.operands := by
    rw [Ollir.Method.instrsOf_listing]
    exact fun i hi o ho ↦ List.mem_flatMap.mpr ⟨i, hi, ho⟩
  refine ⟨_, hjm, rfl, fun s hs ↦ ?_⟩
  rcases Emitter.covers_items hsteps hoperands s hs with ⟨x, hx⟩ | ⟨hzero, o, ho, hreceiver⟩
  · obtain ⟨b, hb⟩ := Emitter.slot_eq_ok_iff.mp hx
    exact .inl ⟨x, b, hb⟩
  · obtain ⟨i, hi, ho⟩ := List.mem_flatMap.mp ho
    exact .inr ⟨hzero, i, hi, o, ho, hreceiver⟩

/-- In a class that is emitted, the slots in a method are those of the variables in its table, apart
from slot 0 if the receiver occurs in the method. -/
theorem slots_assemble {unit : Ollir.Class} {fusion : Bool} {jc : Class}
    (h : unit.assemble fusion = .ok jc) {k : Nat} {m : Ollir.Method}
    (hm : unit.methods[k]? = some m) :
    ∃ jm, jc.methods[k]? = some jm
      ∧ ∀ s ∈ slotsOf jm.lines,
        (∃ x b, (m.assignSlots unit.name).vars.get? x = some b ∧ b.slot = s)
        ∨ s = 0 ∧ ∃ i ∈ m.instrs, ∃ o ∈ i.operands, o.usesReceiver = true := by
  obtain ⟨jm, hjm, _, hslots⟩ := slots_emitClass h (Ollir.Class.getElem?_assignSlots hm)
  have hinstrs : (m.assignSlots unit.name).instrs = m.instrs := by
    rw [Ollir.Method.assignSlots]
    split <;> rfl
  rw [hinstrs] at hslots
  refine ⟨jm, hjm, fun s hs ↦ (hslots s hs).imp_left ?_⟩
  rintro ⟨x, b, hb, _, hslot⟩
  exact ⟨x, b, hb, hslot⟩

/-- **The frame of an emitted method has all slots that its lines name**, whatever variable table it
comes with, unless it is static and uses the receiver.  If it was given its table, with parameters
that are variables of different names, none of them called like the receiver of an instance method,
and there are slots for all of them, then its frame has room for the parameters and the receiver.
No frame that has the slots of its variables and of the receiver is smaller. -/
theorem localsLimit_covers_slots {unit : Ollir.Class} {fusion : Bool} {jc : Class}
    (h : emitClass fusion unit = .ok jc) {k : Nat} {m : Ollir.Method}
    (hm : unit.methods[k]? = some m) :
    ∃ jm, jc.methods[k]? = some jm
      ∧ (m.isStatic = false ∨ (∀ i ∈ m.instrs, ∀ o ∈ i.operands, o.usesReceiver = false) →
        ∀ s ∈ slotsOf jm.lines, s < jm.localsLimit)
      ∧ (∀ (m₀ : Ollir.Method) (ps : List (String × Ollir.Ty)), m₀.vars.isEmpty = true →
        m = m₀.assignSlots unit.name → m₀.params = ps.map (fun p ↦ .var p.1 p.2) →
        (ps.map Prod.fst).Nodup →
        (m₀.isStatic = false → Ollir.receiverName ∉ ps.map Prod.fst) →
        m₀.params.length + (if m₀.isStatic then 0 else 1) ≤ UInt16.size →
        m₀.params.length + (if m₀.isStatic then 0 else 1) ≤ jm.localsLimit)
      ∧ ∀ size, (m.isStatic = false → 0 < size) →
        (∀ e ∈ m.vars.entries, e.2.scope ≠ .field → e.2.slot < size) →
        jm.localsLimit ≤ size := by
  obtain ⟨jm, hjm, hlimit, hslots⟩ := slots_emitClass h hm
  refine ⟨jm, hjm, fun hkeeps s hs ↦ ?_,
    fun m₀ ps hempty hbuilt hparams hnodup hreceiver henough ↦ ?_, fun size hself hvars ↦ ?_⟩
  · rw [hlimit]
    rcases hslots s hs with ⟨x, b, hb, hfield, rfl⟩ | ⟨rfl, i, hi, o, ho, huses⟩
    · exact Nat.lt_of_lt_of_le (VarTable.slot_lt_frameSize hb hfield) (Nat.le_max_left _ _)
    · have hstatic := hkeeps.resolve_right fun hnone ↦
        absurd huses (Bool.eq_false_iff.mp (hnone i hi o ho))
      rw [hstatic]
      exact Nat.le_max_right _ _
  · rw [Ollir.Method.assignSlots, if_pos hempty] at hbuilt
    rw [hparams, List.length_map] at henough ⊢
    rw [hlimit, hbuilt]
    exact m₀.length_params_le_frameSize unit.name hparams hnodup hreceiver henough
  · rw [hlimit, Nat.max_le, VarTable.frameSize_le_iff]
    refine ⟨hvars, ?_⟩
    split
    · exact Nat.zero_le _
    · exact hself (Bool.eq_false_iff.mpr ‹_›)

/-- The statement for a class of two methods.  The first one comes with a table, in which two
variables share slot four and a field has slot nine; the second one is given its table. -/
theorem localsLimit_covers_slots_shared :
    let x (name : String) : Operand := .var name .int32
    let entry (name : String) (scope : Ollir.VarScope) (slot : Nat) : String × Ollir.Binding :=
      (name, ⟨scope, slot, .int32⟩)
    let f : Ollir.Method :=
      { name := "f", isStatic := true, params := [x "a"], returns := .int32,
        instrs := [.assign (x "t") .int32 (.single (x "a")),
          .assign (x "u") .int32 (.binary .add (x "u") (.literal 1 .int32) .int32),
          .ret .int32 (some (x "u"))],
        vars := ⟨[entry "a" .parameter 0, entry "t" .local 4, entry "u" .local 4,
          entry "n" .field 9]⟩ }
    let g : Ollir.Method :=
      { name := "g", params := [x "a", .var "v" .intArray], returns := .void,
        instrs := [.ret .void none] }
    let unit : Ollir.Class := { name := "A", methods := [f, g.assignSlots "A"] }
    ∃ jc jf jg, emitClass true unit = .ok jc ∧ jc.methods[0]? = some jf
      ∧ jc.methods[1]? = some jg
      ∧ slotsOf jf.lines = [0, 4, 4, 4] ∧ (∀ s ∈ slotsOf jf.lines, s < jf.localsLimit)
      ∧ jf.localsLimit ≤ 5 ∧ 3 ≤ jg.localsLimit := by
  intro x entry f g unit
  have hemit : ((emitClass true unit).toOption.bind fun jc ↦
      jc.methods[0]?.map fun jf ↦ slotsOf jf.lines) = some [0, 4, 4, 4] := by decide +kernel
  cases hjc : emitClass true unit with
  | error fault =>
    rw [hjc] at hemit
    cases hemit
  | ok jc =>
    obtain ⟨jf, hjf, hcovers, _, hleast⟩ := localsLimit_covers_slots hjc (k := 0) (m := f) rfl
    obtain ⟨jg, hjg, _, hparams, _⟩ :=
      localsLimit_covers_slots hjc (k := 1) (m := g.assignSlots "A") rfl
    rw [hjc, Except.toOption, Option.bind_some, hjf] at hemit
    exact ⟨jc, jf, jg, rfl, hjf, hjg, Option.some.inj hemit, hcovers (.inr (by decide)),
      hleast 5 (fun hstatic ↦ Bool.noConfusion hstatic) (by decide),
      hparams g [("a", .int32), ("v", .intArray)] rfl rfl rfl (by decide) (fun _ ↦ by decide)
        (by decide)⟩

/-- **The operations on a slot are of one family** where every variable has one type and there are
slots for all of them, apart from those on the slot of the receiver if something else has it too. -/
theorem family_assemble {unit : Ollir.Class} {fusion : Bool} {jc : Class}
    (h : unit.assemble fusion = .ok jc) {k : Nat} {m : Ollir.Method}
    (hm : unit.methods[k]? = some m) (hvars : m.vars.isEmpty = true)
    (hsize : (m.table unit.name).size ≤ UInt16.size)
    (hsingle : ∀ v ∈ m.typedVars, ∀ w ∈ m.typedVars, v.1 = w.1 → v.2 = w.2) :
    ∃ jm, jc.methods[k]? = some jm ∧ ∀ slot, slot ≠ 0 ∨ m.KeepsReceiver →
      ∃ family, ∀ o, .op o ∈ jm.lines → o.slot? = some slot → o.family? = some family := by
  obtain ⟨jm, hjm, hmade⟩ := allMade_assemble h hm
  rw [Ollir.Method.assignSlots, if_pos hvars] at hmade
  have hoperands : (m.instrs.flatMap Instr.operands).flatMap Operand.typedVars ⊆ m.typedVars := by
    rw [List.flatMap_assoc]
    exact List.subset_append_right _ _
  refine ⟨jm, hjm, fun slot hslot ↦ ?_⟩
  by_cases hvar : ∃ v ∈ m.typedVars, ∃ b, (m.table unit.name).get? v.1 = some b ∧ b.slot = slot
  · obtain ⟨v, hv, b, hb, rfl⟩ := hvar
    refine ⟨.ofTy v.2, fun o ho hoslot ↦ ?_⟩
    rcases (hmade o ho).slot_cases hoslot with ⟨w, hw, hs, hfamily⟩ | ⟨hzero, _, o', ho', hself⟩
    · obtain ⟨b', hb', hs⟩ := Emitter.slot_eq_ok hs
      have hname : v.1 = w.1 := (m.isDense_table unit.name).slot_inj hsize hb hb' hs.symm
      rw [hfamily, hsingle v hv w (hoperands hw) hname]
    · -- The variable has the slot that the receiver is loaded from.
      have hkeeps := hslot.resolve_left fun hne ↦ hne hzero
      rw [Ollir.Method.KeepsReceiver] at hkeeps
      split at hkeeps
      · exact absurd hself (Bool.eq_false_iff.mp (hkeeps o' ho'))
      · rename_i hstatic
        have hb' := m.get?_receiver_table unit.name (Bool.eq_false_iff.mpr hstatic)
        exact absurd ((m.isDense_table unit.name).slot_inj hsize hb hb' hzero) (hkeeps v hv)
  · refine ⟨.reference, fun o ho hoslot ↦ ?_⟩
    rcases (hmade o ho).slot_cases hoslot with ⟨w, hw, hs, _⟩ | ⟨_, hfamily, _⟩
    · obtain ⟨b, hb, hs⟩ := Emitter.slot_eq_ok hs
      exact absurd ⟨w, hoperands hw, b, hb, hs⟩ hvar
    · exact hfamily

end Jasmin
end Jmm
