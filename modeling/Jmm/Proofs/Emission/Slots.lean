import Jmm.Ollir.Slots
import Jmm.Proofs.Lowering.Fresh

/-!
# Variable tables of methods

A variable table is built by declaring one name after the other, so what a declaration preserves
holds of the whole table (`Method.table_induction`).  Two facts follow.

* `Method.isDense_table`: names are bound once, to the slots from zero on without a gap, counted in
  16 bits.  Unless there are more names than slots, two names then never share one
  (`VarTable.IsDense.slot_inj`), and only `this` is bound as the receiver.
* `Method.contains_table`: every variable that occurs in an instruction is bound.

The type of a binding is one that the name occurs with (`Method.type_table`).
-/

set_option autoImplicit false

namespace Jmm.Ollir

/-- The operands of an instruction, in the order in which they get slots. -/
def Instr.operands : Instr → List Operand
  | assign target _ value => target :: value.operands
  | single o => [o]
  | binary _ left right _ => [left, right]
  | not o _ => [o]
  | call c => c.caller :: c.args
  | getField object _ _ => [object]
  | putField object _ _ value => [object, value]
  | branch test _ => test.operands
  | goto _ => []
  | ret _ value => value.toList

/-- The variables of an operand, each with its type.  An element counts for its array. -/
def Operand.typedVars : Operand → List (String × Ty)
  | var name type => [(name, type)]
  | element name index type => (name, .array type) :: index.typedVars
  | literal _ _ | receiver _ | classRef _ => []

/-- The variables of an instruction, each with its type. -/
def Instr.typedVars (i : Instr) : List (String × Ty) := i.operands.flatMap Operand.typedVars

/-- The parameters of a method and the variables in its instructions, each with its type. -/
def Method.typedVars (m : Method) : List (String × Ty) :=
  m.params.flatMap Operand.typedVars ++ m.instrs.flatMap Instr.typedVars

theorem Operand.mem_reads_of_typedVars {o : Operand} {v : String × Ty} (h : v ∈ o.typedVars) :
    v.1 ∈ o.reads := by
  induction o with
  | var name type =>
    obtain rfl := List.mem_singleton.mp h
    exact List.mem_cons_self
  | element name index type ih =>
    rcases List.mem_cons.mp h with rfl | h
    · exact List.mem_cons_self
    · exact List.mem_cons_of_mem _ (ih h)
  | _ => exact absurd h List.not_mem_nil

namespace VarTable

variable {t : VarTable} {x y : String} {b b' : Binding} {scope : VarScope} {type : Ty}

/-! ## Looking up names -/

theorem mem_of_get? (h : t.get? x = some b) : (x, b) ∈ t.entries := by
  obtain ⟨e, he, rfl⟩ := Option.map_eq_some_iff.mp h
  have hname : e.1 = x := by simpa using List.find?_some he
  exact hname ▸ List.mem_of_find?_eq_some he

theorem contains_eq_isSome (t : VarTable) (x : String) : t.contains x = (t.get? x).isSome := by
  rw [contains, get?, Option.isSome_map, List.isSome_find?]

theorem contains_iff : t.contains x = true ↔ x ∈ t.entries.map Prod.fst := by
  simp [contains]

/-- A name that is new gets its binding, and the others keep theirs. -/
theorem get?_insert_of_new (h : t.contains x = false) (b : Binding) (y : String) :
    (t.insert x b).get? y = if x == y then some b else t.get? y := by
  rw [insert, h, if_neg Bool.false_ne_true, get?, List.find?_append]
  by_cases hxy : x = y
  · have hnone : t.entries.find? (fun e ↦ e.1 == y) = none := by
      rw [contains_eq_isSome, get?, Option.isSome_map, Option.isSome_eq_false_iff, hxy] at h
      exact Option.isNone_iff_eq_none.mp h
    simp [hnone, hxy]
  · simp [hxy, get?]

/-- A binding stays when another name is declared, and also when the name itself is. -/
theorem get?_declare (h : t.get? x = some b) (y : String) (scope : VarScope) (type : Ty) :
    (t.declare y scope type).get? x = some b := by
  rw [declare, insert]
  split
  · exact h
  · obtain ⟨e, he, rfl⟩ := Option.map_eq_some_iff.mp h
    rw [get?, List.find?_append, he]
    rfl

theorem contains_declare_of_contains (h : t.contains x = true) (y : String) (scope : VarScope)
    (type : Ty) : (t.declare y scope type).contains x = true := by
  rw [contains_eq_isSome] at h ⊢
  obtain ⟨b, hb⟩ := Option.isSome_iff_exists.mp h
  rw [get?_declare hb]
  rfl

/-- A declared name is bound. -/
theorem contains_declare (t : VarTable) (x : String) (scope : VarScope) (type : Ty) :
    (t.declare x scope type).contains x = true := by
  rw [declare, insert]
  split
  · assumption
  · rw [contains_iff, List.map_append]
    exact List.mem_append_right _ List.mem_cons_self

/-! ## Slots without a gap -/

/-- Names are bound once, each to the slot that is its position in the table, counted in 16 bits;
there are no fields, and only `this` is bound as the receiver. -/
structure IsDense (t : VarTable) : Prop where
  nodup : (t.entries.map Prod.fst).Nodup
  slot : ∀ (k : Nat) (e : String × Binding), t.entries[k]? = some e →
    e.2.slot = k % UInt16.size
  scope : ∀ e ∈ t.entries, e.2.scope ≠ .field
  receiver : ∀ e ∈ t.entries, e.2.scope = .receiver → e.1 = receiverName

theorem isDense_empty : IsDense {} where
  nodup := List.nodup_nil
  slot _ _ h := nomatch h
  scope _ h := nomatch h
  receiver _ h := nomatch h

theorem IsDense.declare (h : t.IsDense) (hfield : scope ≠ .field)
    (hreceiver : scope = .receiver → x = receiverName) (type : Ty) :
    (t.declare x scope type).IsDense := by
  rw [VarTable.declare, insert]
  split
  · exact h
  · rename_i hnew
    rw [contains_iff] at hnew
    refine ⟨?_, ?_, ?_, ?_⟩
    · rw [List.map_append]
      exact h.nodup.append (List.nodup_singleton _) (by simpa using hnew)
    · intro k e he
      rw [List.getElem?_append] at he
      split at he
      · exact h.slot k e he
      · rename_i hk
        rw [List.getElem?_singleton] at he
        split at he
        · obtain rfl := Option.some.inj he
          have hlength : t.size = k := by rw [size]; omega
          show t.size % UInt16.size = k % UInt16.size
          rw [hlength]
        · exact nomatch he
    · intro e he
      rcases List.mem_append.mp he with he | he
      · exact h.scope e he
      · rw [List.mem_singleton.mp he]
        exact hfield
    · intro e he
      rcases List.mem_append.mp he with he | he
      · exact h.receiver e he
      · rw [List.mem_singleton.mp he]
        exact hreceiver

/-- While no more names are bound than there are slots, a slot is the position in the table. -/
theorem IsDense.slot_eq (h : t.IsDense) (hsize : t.size ≤ UInt16.size) {k : Nat}
    {e : String × Binding} (he : t.entries[k]? = some e) : e.2.slot = k := by
  obtain ⟨hk, _⟩ := List.getElem?_eq_some_iff.mp he
  rw [h.slot k e he, Nat.mod_eq_of_lt (Nat.lt_of_lt_of_le hk hsize)]

/-- **Different names have different slots**, unless there are more names than slots. -/
theorem IsDense.slot_inj (h : t.IsDense) (hsize : t.size ≤ UInt16.size) (hx : t.get? x = some b)
    (hy : t.get? y = some b') (hslot : b.slot = b'.slot) : x = y := by
  obtain ⟨k, hk⟩ := List.mem_iff_getElem?.mp (mem_of_get? hx)
  obtain ⟨j, hj⟩ := List.mem_iff_getElem?.mp (mem_of_get? hy)
  have hkj : k = j := (h.slot_eq hsize hk).symm.trans (hslot.trans (h.slot_eq hsize hj))
  subst hkj
  exact congrArg Prod.fst (Option.some.inj (hk.symm.trans hj))

theorem IsDense.scope_ne_receiver (h : t.IsDense) (hx : t.get? x = some b)
    (hne : x ≠ receiverName) : b.scope ≠ .receiver :=
  fun hscope ↦ hne (h.receiver _ (mem_of_get? hx) hscope)

/-! ## Adding operands and instructions -/

theorem addInstr_eq_foldl (t : VarTable) (i : Instr) :
    t.addInstr i = i.operands.foldl addOperand t := by
  fun_induction addInstr t i with
  | case1 t target type value ih => exact ih
  | case8 t test label ih => exact ih
  | _ => rfl

section Induction

variable {P : VarTable → Prop} (hdeclare : ∀ t x type, P t → P (t.declare x .local type))

include hdeclare

theorem addOperand_induction (o : Operand) (h : P t) : P (t.addOperand o) := by
  fun_induction addOperand t o with
  | case1 t name type => exact hdeclare t name type h
  | case2 t name index type ih => exact ih (hdeclare t name _ h)
  | _ => exact h

theorem addOperands_induction (os : List Operand) (h : P t) : P (os.foldl addOperand t) :=
  List.foldlRecOn (motive := P) os _ h fun _ ht o _ ↦ addOperand_induction hdeclare o ht

theorem addInstrs_induction (is : List Instr) (h : P t) : P (is.foldl addInstr t) :=
  List.foldlRecOn (motive := P) is _ h fun t ht i _ ↦ by
    rw [addInstr_eq_foldl]
    exact addOperands_induction hdeclare i.operands ht

end Induction

theorem contains_addOperand {o : Operand} (h : x ∈ o.reads) (t : VarTable) :
    (t.addOperand o).contains x = true := by
  fun_induction addOperand t o with
  | case1 t name type =>
    obtain rfl := List.mem_singleton.mp h
    exact contains_declare t x _ _
  | case2 t name index type ih =>
    rcases List.mem_cons.mp h with rfl | h
    · exact addOperand_induction (P := fun t ↦ t.contains x = true)
        (fun t y _ h ↦ contains_declare_of_contains h y _ _) index (contains_declare t x _ _)
    · exact ih h
  | _ => exact absurd h List.not_mem_nil

end VarTable

/-! ## Tables of methods -/

/-- What the first binding has and declarations of parameters and locals preserve holds of the table
of a method. -/
theorem Method.table_induction {P : VarTable → Prop} (className : String) (m : Method)
    (hstart : P (if m.isStatic then {} else
      VarTable.declare {} receiverName .receiver (.named className)))
    (hdeclare : ∀ t x scope type, scope = .parameter ∨ scope = .local → P t →
      P (t.declare x scope type)) : P (m.table className) := by
  have hlocal : ∀ t x type, P t → P (t.declare x .local type) := fun t x type ↦
    hdeclare t x .local type (.inr rfl)
  refine VarTable.addInstrs_induction hlocal m.instrs ?_
  refine List.foldlRecOn (motive := P) m.params _ hstart fun t ht o _ ↦ ?_
  rw [VarTable.addParam.eq_def]
  split
  · exact hdeclare t _ _ _ (.inl rfl) ht
  · exact ht

/-- **The names of a method have the slots from zero on**, counted in 16 bits. -/
theorem Method.isDense_table (className : String) (m : Method) :
    (m.table className).IsDense := by
  refine m.table_induction className ?_ fun t x scope type hscope ht ↦ ?_
  · split
    · exact VarTable.isDense_empty
    · exact VarTable.isDense_empty.declare (by decide) (fun _ ↦ rfl) _
  · refine ht.declare ?_ (fun hreceiver ↦ ?_) type
    · rcases hscope with rfl | rfl <;> decide
    · subst hreceiver
      exact absurd hscope (by decide)

/-- The receiver of an instance method has the first slot. -/
theorem Method.get?_receiver_table (className : String) {m : Method} (h : m.isStatic = false) :
    (m.table className).get? receiverName = some ⟨.receiver, 0, .named className⟩ := by
  refine m.table_induction className (P := fun t ↦ t.get? receiverName = some _) ?_
    fun t x scope type _ ht ↦ VarTable.get?_declare ht _ _ _
  rw [h]
  rfl

/-- **Every variable in an instruction of a method is bound.** -/
theorem Method.contains_table (className : String) {m : Method} {i : Instr} (hi : i ∈ m.instrs)
    {o : Operand} (ho : o ∈ i.operands) {x : String} (hx : x ∈ o.reads) :
    (m.table className).contains x = true := by
  have hdeclare : ∀ t y type, VarTable.contains t x = true →
      (t.declare y .local type).contains x = true := fun t y type h ↦
    VarTable.contains_declare_of_contains h y _ type
  obtain ⟨before, after, hsplit⟩ := List.append_of_mem hi
  obtain ⟨before', after', hsplit'⟩ := List.append_of_mem ho
  rw [table, hsplit, List.foldl_append, List.foldl_cons]
  refine VarTable.addInstrs_induction hdeclare after ?_
  rw [VarTable.addInstr_eq_foldl, hsplit', List.foldl_append, List.foldl_cons]
  exact VarTable.addOperands_induction hdeclare after' (VarTable.contains_addOperand hx _)

/-! ## Types of bindings -/

namespace VarTable

variable {t : VarTable} {entry : String × Binding}

theorem mem_declare {x : String} {scope : VarScope} {type : Ty}
    (h : entry ∈ (t.declare x scope type).entries) :
    entry ∈ t.entries ∨ entry.1 = x ∧ entry.2.type = type := by
  rw [declare, insert] at h
  split at h
  · exact .inl h
  · rcases List.mem_append.mp h with h | h
    · exact .inl h
    · obtain rfl := List.mem_singleton.mp h
      exact .inr ⟨rfl, rfl⟩

theorem mem_addOperand {o : Operand} (h : entry ∈ (t.addOperand o).entries) :
    entry ∈ t.entries ∨ (entry.1, entry.2.type) ∈ o.typedVars := by
  fun_induction addOperand t o with
  | case1 t name type =>
    rcases mem_declare h with h | ⟨rfl, rfl⟩
    · exact .inl h
    · exact .inr List.mem_cons_self
  | case2 t name index type ih =>
    rcases ih h with h | h
    · rcases mem_declare h with h | ⟨rfl, htype⟩
      · exact .inl h
      · rw [htype]
        exact .inr List.mem_cons_self
    · exact .inr (List.mem_cons_of_mem _ h)
  | _ => exact .inl h

theorem mem_addParam {o : Operand} (h : entry ∈ (t.addParam o).entries) :
    entry ∈ t.entries ∨ (entry.1, entry.2.type) ∈ o.typedVars := by
  cases o with
  | var name type =>
    rcases mem_declare h with h | ⟨rfl, rfl⟩
    · exact .inl h
    · exact .inr List.mem_cons_self
  | _ => exact .inl h

/-- Bindings that are added by a fold come from one of its steps. -/
theorem mem_foldl {α : Type} {add : VarTable → α → VarTable} {vars : α → List (String × Ty)}
    {as : List α} (h : entry ∈ (as.foldl add t).entries)
    (hadd : ∀ t a, entry ∈ (add t a).entries →
      entry ∈ t.entries ∨ (entry.1, entry.2.type) ∈ vars a) :
    entry ∈ t.entries ∨ (entry.1, entry.2.type) ∈ as.flatMap vars := by
  induction as generalizing t with
  | nil => exact .inl h
  | cons a as ih =>
    rw [List.flatMap_cons, List.mem_append]
    rcases ih h with h | h
    · exact (hadd t a h).imp_right .inl
    · exact .inr (.inr h)

theorem mem_addInstr {i : Instr} (h : entry ∈ (t.addInstr i).entries) :
    entry ∈ t.entries ∨ (entry.1, entry.2.type) ∈ i.typedVars := by
  rw [addInstr_eq_foldl] at h
  exact mem_foldl h fun t o ↦ mem_addOperand

end VarTable

/-- **A binding has a type that its name occurs with**, unless it is that of the receiver. -/
theorem Method.type_table {className : String} {m : Method} {x : String} {b : Binding}
    (h : (m.table className).get? x = some b) :
    (x, b.type) ∈ m.typedVars ∨ m.isStatic = false ∧ x = receiverName := by
  rw [typedVars, List.mem_append]
  rcases VarTable.mem_foldl (VarTable.mem_of_get? h) fun t i ↦ VarTable.mem_addInstr with h | h
  · rcases VarTable.mem_foldl h fun t o ↦ VarTable.mem_addParam with h | h
    · split at h
      · exact absurd h List.not_mem_nil
      · rename_i hstatic
        rcases VarTable.mem_declare h with h | ⟨hx, _⟩
        · exact absurd h List.not_mem_nil
        · exact .inr ⟨Bool.eq_false_iff.mpr hstatic, hx⟩
    · exact .inl (.inl h)
  · exact .inl (.inr h)

/-- The variables of a method are bound. -/
theorem Method.contains_table_of_typedVars (className : String) {m : Method}
    (hparams : ∀ o ∈ m.params, ∃ x t, o = .var x t) {v : String × Ty} (hv : v ∈ m.typedVars) :
    (m.table className).contains v.1 = true := by
  rcases List.mem_append.mp hv with hv | hv
  · obtain ⟨o, ho, hv⟩ := List.mem_flatMap.mp hv
    obtain ⟨x, t, rfl⟩ := hparams o ho
    obtain rfl := List.mem_singleton.mp hv
    have hdeclare : ∀ t y scope type, VarTable.contains t x = true →
        (t.declare y scope type).contains x = true := fun t y scope type h ↦
      VarTable.contains_declare_of_contains h y scope type
    obtain ⟨before, after, hsplit⟩ := List.append_of_mem ho
    rw [table, hsplit, List.foldl_append, List.foldl_cons]
    refine VarTable.addInstrs_induction (fun t y type ↦ hdeclare t y .local type) m.instrs ?_
    refine List.foldlRecOn (motive := fun t ↦ VarTable.contains t x = true) after _
      (VarTable.contains_declare _ x _ _) fun t ht o _ ↦ ?_
    cases o with
    | var y type => exact hdeclare t y .parameter type ht
    | _ => exact ht
  · obtain ⟨i, hi, hv⟩ := List.mem_flatMap.mp hv
    obtain ⟨o, ho, hv⟩ := List.mem_flatMap.mp hv
    exact contains_table className hi ho (Operand.mem_reads_of_typedVars hv)

end Jmm.Ollir
