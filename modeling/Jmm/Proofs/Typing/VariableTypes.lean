import Jmm.Proofs.Emission.Locals
import Jmm.Proofs.Typing.Resolution
import Jmm.Proofs.Typing.Rules

/-!
# One type per variable

Operands carry the type of their variable with them, and lowering computes this type anew wherever
the variable occurs.  `Typed V n n' vars` says that some occurrences agree: a variable that is drawn
between the counters `n` and `n'` has one type, and all other variables are not generated and have
the types that `V` gives.  It holds of the code and the value of every expression together
(`Lowerer.typed_expr`), and of whole methods (`Lowerer.typed_method`).

An element of an array counts as its array, so that what is indexed has to be one.  This is where
the types that inference finds are needed.

So the variable table binds every variable with its only type, and emitted code uses the slot of a
variable in one family (`variables_have_one_type`).  What breaks this is the receiver: in instance
methods its slot is found under the name `this`, and in static methods it is loaded from slot 0
though it has none (`parameter_shares_receiver_slot`).
-/

set_option autoImplicit false

namespace Jmm

namespace Ollir

/-! ## Occurrences of variables -/

section

variable (name : String) (t : Ty) (i : Instr)

@[simp] theorem typedVars_assign (target : Operand) :
    (Instr.assign target t i).typedVars = target.typedVars ++ i.typedVars := by
  rw [Instr.typedVars, Instr.operands, List.flatMap_cons, Instr.typedVars]

@[simp] theorem typedVars_var : (Operand.var name t).typedVars = [(name, t)] := rfl

@[simp] theorem typedVars_single (o : Operand) : (Instr.single o).typedVars = o.typedVars :=
  List.flatMap_singleton _ _

@[simp] theorem typedVars_call (c : Call) :
    (Instr.call c).typedVars = c.caller.typedVars ++ c.args.flatMap Operand.typedVars :=
  List.flatMap_cons

@[simp] theorem typedVars_branch (test : Instr) (label : String) :
    (Instr.branch test label).typedVars = test.typedVars := rfl

@[simp] theorem typedVars_goto (label : String) : (Instr.goto label).typedVars = [] := rfl

end

/-! ## Occurrences that agree -/

/-- Occurrences of variables between two states of the counters: the variables are drawn between
them, or they are not generated and have the types of an environment, and none has two types. -/
structure Typed (V : String → Ty) (n n' : Names) (vars : List (String × Ty)) : Prop where
  le : n ≤ n'
  known : ∀ v ∈ vars, n.NewVar n' v.1 ∨ ¬ IsGenerated v.1 ∧ v.2 = V v.1
  single : ∀ v ∈ vars, ∀ w ∈ vars, v.1 = w.1 → v.2 = w.2

section Typed

variable {V : String → Ty} {n m n' : Names} {vars vars' : List (String × Ty)} {x : String}

theorem typed_nil (h : n ≤ n') : Typed V n n' [] :=
  ⟨h, fun _ hv ↦ absurd hv List.not_mem_nil, fun _ hv ↦ absurd hv List.not_mem_nil⟩

theorem Typed.of_subset (h : Typed V n n' vars) (hsub : vars' ⊆ vars) : Typed V n n' vars' :=
  ⟨h.le, fun v hv ↦ h.known v (hsub hv), fun v hv w hw ↦ h.single v (hsub hv) w (hsub hw)⟩

/-- What is drawn later has another name. -/
theorem Typed.append (h : Typed V n m vars) (h' : Typed V m n' vars') :
    Typed V n n' (vars ++ vars') := by
  have hacross : ∀ v ∈ vars, ∀ w ∈ vars', v.1 = w.1 → v.2 = w.2 := by
    intro v hv w hw heq
    rcases h.known v hv with hnew | ⟨hplain, htype⟩
    · rcases h'.known w hw with hnew' | ⟨hplain', _⟩
      · exact absurd (heq ▸ hnew') (hnew.not_later (le_refl m))
      · exact absurd (heq ▸ hnew.isGenerated) hplain'
    · rcases h'.known w hw with hnew' | ⟨_, htype'⟩
      · exact absurd (heq ▸ hnew'.isGenerated) hplain
      · rw [htype, htype', heq]
  refine ⟨h.le.trans h'.le, fun v hv ↦ ?_, fun v hv w hw heq ↦ ?_⟩
  · rcases List.mem_append.mp hv with hv | hv
    · exact (h.known v hv).imp_left fun hnew ↦ hnew.mono (le_refl n) h'.le
    · exact (h'.known v hv).imp_left fun hnew ↦ hnew.mono h.le (le_refl n')
  · rcases List.mem_append.mp hv with hv | hv <;> rcases List.mem_append.mp hw with hw | hw
    · exact h.single v hv w hw heq
    · exact hacross v hv w hw heq
    · exact (hacross w hw v hv heq.symm).symm
    · exact h'.single v hv w hw heq

theorem Typed.later (h : Typed V n m vars) (hle : m ≤ n') : Typed V n n' vars :=
  (h.append (typed_nil hle)).of_subset (List.subset_append_left _ _)

/-- A variable that is drawn may have any type. -/
theorem typed_new (h : n.NewVar n' x) (hle : n ≤ n') (t : Ty) : Typed V n n' [(x, t)] := by
  refine ⟨hle, List.forall_mem_singleton.mpr (.inl h), fun v hv w hw _ ↦ ?_⟩
  rw [List.mem_singleton.mp hv, List.mem_singleton.mp hw]

theorem typed_next (k : NameKind) (hk : k.isLabel = false) (n : Names) (t : Ty) :
    Typed V n (n.bump k) [(k.name (n.count k), t)] :=
  typed_new (Names.newVar_next hk (le_refl _)) (Names.le_bump n k) t

theorem typed_known (h : ¬ IsGenerated x) (n : Names) : Typed V n n [(x, V x)] := by
  refine ⟨le_refl n, List.forall_mem_singleton.mpr (.inr ⟨h, rfl⟩), fun v hv w hw _ ↦ ?_⟩
  rw [List.mem_singleton.mp hv, List.mem_singleton.mp hw]

end Typed

/-! ## Lowered values -/

/-- The variables in the code and the value of a lowered expression. -/
def Lowered.vars (x : Lowered) : List (String × Ty) :=
  gather Instr.typedVars x.code ++ x.value.typedVars

section Lowered

variable {V : String → Ty} {n m n' : Names} {vars : List (String × Ty)} {code : List Item}
  {value : Instr} {x y : Lowered}

/-- A value whose variables agree with others may be stored. -/
theorem Typed.materialize (h : Typed V n n' vars) (hvalue : value.typedVars ⊆ vars) :
    Typed V n (materialize value n').2
      (vars ++ (gather Instr.typedVars (materialize value n').1.1
        ++ (materialize value n').1.2.typedVars)) := by
  rcases materialize_cases value n' with ⟨o, rfl, heq⟩ | ⟨_, heq⟩
  · rw [heq]
    rw [typedVars_single] at hvalue
    exact h.of_subset (List.append_subset.mpr ⟨List.Subset.refl _, hvalue⟩)
  · rw [heq]
    refine (h.append (typed_next .temp rfl n' value.resultType)).of_subset fun v hv ↦ ?_
    have := @hvalue v
    simp only [gather_assignVar, typedVars_assign, gather_nil, Operand.typedVars, List.mem_append,
      List.mem_cons, List.not_mem_nil, or_false] at hv ⊢
    grind

theorem typed_asOperand {e : Draw Lowered} (h : Typed V n (e n).2 (e n).1.vars) :
    Typed V n (asOperand e n).2
      (gather Instr.typedVars (asOperand e n).1.1 ++ (asOperand e n).1.2.typedVars) := by
  rw [asOperand_apply, gather_append, List.append_assoc]
  refine (h.materialize (List.subset_append_right _ _)).of_subset fun v hv ↦ ?_
  simp only [Lowered.vars, List.mem_append] at hv ⊢
  grind

theorem typed_asVar {e : Draw Lowered} (h : Typed V n (e n).2 (e n).1.vars) :
    Typed V n (asVar e n).2
      (gather Instr.typedVars (asVar e n).1.1 ++ [((asVar e n).1.2.1, (asVar e n).1.2.2)]) := by
  have hoperand := typed_asOperand h
  rcases asVar_cases e n with ⟨name, t, ho, heq⟩ | ⟨_, heq⟩
  · rw [heq]
    rwa [ho] at hoperand
  · rw [heq]
    have htemp := typed_next (V := V) .temp rfl (asOperand e n).2 (asOperand e n).1.2.type
    refine (hoperand.append htemp).of_subset fun v hv ↦ ?_
    simp only [gather_append, gather_assignVar, typedVars_assign, typedVars_var, gather_nil,
      typedVars_single, List.mem_append, List.mem_cons, List.not_mem_nil, or_false] at hv ⊢
    grind

theorem typed_stored (h : Typed V n n' (gather Instr.typedVars code ++ value.typedVars)) :
    Typed V n (stored code value n').2 (stored code value n').1.vars := by
  rw [stored_apply, Lowered.vars, gather_append, typedVars_single, List.append_assoc]
  refine (h.materialize (List.subset_append_right _ _)).of_subset fun v hv ↦ ?_
  simp only [List.mem_append] at hv ⊢
  grind

theorem typed_shortCircuit (hx : Typed V n m x.vars) (hy : Typed V m n' y.vars) (t : Ty)
    (isOr : Bool) :
    Typed V n (shortCircuit x y t isOr n').2 (shortCircuit x y t isOr n').1.vars := by
  obtain ⟨trueLabel, endLabel, result, hnew, heq⟩ := shortCircuit_diamond x y t isOr n'
  have hresult : Typed V n' (shortCircuit x y t isOr n').2 [(result, t)] :=
    typed_new hnew (le_shortCircuit x y t isOr n') t
  refine ((hx.append hy).append hresult).of_subset ?_
  rw [heq]
  intro v hv
  cases isOr <;>
    simp only [Lowered.vars, gather_append, gather_diamond, typedVars_branch, typedVars_goto,
      gather_assignVar, typedVars_assign, gather_nil, typedVars_single, Operand.bool,
      Operand.typedVars, if_true, if_false, Bool.false_eq_true, List.mem_append, List.mem_cons,
      List.not_mem_nil, or_false] at hv ⊢ <;>
    grind

theorem typed_operation (hx : Typed V n m x.vars) (hy : Typed V m n' y.vars) (op : BinOp) (t : Ty)
    (inline : Bool) :
    Typed V n (operation op x y t inline n').2 (operation op x y t inline n').1.vars := by
  obtain ⟨code, o, o', n'', rfl, rfl, rfl, rfl, heq⟩ := operation_apply op x y t inline n'
  -- both values are stored after the code of both operands
  have hleft : Typed V n (materialize x.value n').2 _ := (hx.append hy).materialize fun v hv ↦ by
    simp only [Lowered.vars, List.mem_append]
    grind
  have hright : Typed V n (materialize y.value (materialize x.value n').2).2 _ :=
    hleft.materialize fun v hv ↦ by
      simp only [Lowered.vars, List.mem_append]
      grind
  have hcode : Typed V n (materialize y.value (materialize x.value n').2).2
      (gather Instr.typedVars (x.code ++ (materialize x.value n').1.1 ++ y.code
        ++ (materialize y.value (materialize x.value n').2).1.1)
      ++ (Instr.binary op (materialize x.value n').1.2
        (materialize y.value (materialize x.value n').2).1.2 t).typedVars) := by
    refine hright.of_subset fun v hv ↦ ?_
    simp only [Lowered.vars, gather_append, Instr.typedVars, Instr.operands, List.flatMap_cons,
      List.flatMap_nil, List.append_nil, List.mem_append] at hv ⊢
    grind
  rw [heq]
  cases inline with
  | true => exact hcode
  | false => exact typed_stored hcode

theorem typed_packed (length : Nat) (element : Ty) {fill : String → Draw (List Item)}
    (hfill : ∀ name n, ∃ vars, Typed V n (fill name n).2 vars
      ∧ gather Instr.typedVars (fill name n).1 ⊆ (name, .array element) :: vars) (n : Names) :
    Typed V n (packed length element fill n).2 (packed length element fill n).1.vars := by
  have htemp := typed_next (V := V) .temp rfl n (.array element)
  rw [packed, Draw.bind_apply]
  split
  · refine htemp.of_subset fun v hv ↦ ?_
    simpa [Lowered.vars, Call.newArray, Operand.int, Operand.typedVars] using hv
  · have hname := typed_next (V := V) .varargsArray rfl (n.bump .temp) (.array element)
    obtain ⟨vars, hvars, hsub⟩ := hfill
      (NameKind.varargsArray.name ((n.bump .temp).count .varargsArray))
      ((n.bump .temp).bump .varargsArray)
    refine ((htemp.append hname).append hvars).of_subset fun v hv ↦ ?_
    have := @hsub v
    simp [Lowered.vars, Call.newArray, Operand.int, Operand.typedVars] at hv this ⊢
    grind

end Lowered

namespace Lowerer

variable (l : Lowerer) {n n' : Names} {V : String → Ty}

theorem typed_stores {es : List Expr}
    (ih : ∀ e ∈ es, ∀ use n, Typed V n (l.expr e use n).2 (l.expr e use n).1.vars) (array : String)
    (element : Ty) (position : Nat) (n : Names) :
    ∃ vars, Typed V n (l.stores array element position es n).2 vars
      ∧ gather Instr.typedVars (l.stores array element position es n).1
        ⊆ (array, .array element) :: vars := by
  induction es generalizing position n with
  | nil => exact ⟨[], typed_nil (le_refl n), List.nil_subset _⟩
  | cons e es ihes =>
    rw [Lowerer.stores]
    have hfirst := typed_asOperand (ih e List.mem_cons_self (.expected element) n)
    obtain ⟨vars, hvars, hsub⟩ := ihes (fun e' he' ↦ ih e' (List.mem_cons_of_mem e he'))
      (position + 1) (asOperand (l.expr e (.expected element)) n).2
    refine ⟨_, hfirst.append hvars, fun v hv ↦ ?_⟩
    have := @hsub v
    simp [Operand.int, Operand.typedVars] at hv this ⊢
    grind

theorem typed_args {es : List Expr}
    (ih : ∀ e ∈ es, ∀ use n, Typed V n (l.expr e use n).2 (l.expr e use n).1.vars)
    (formals : List (Ty × Bool)) (position : Nat) (n : Names) :
    Typed V n (l.args formals position es n).2
      (gather Instr.typedVars (l.args formals position es n).1.1
        ++ (l.args formals position es n).1.2.flatMap Operand.typedVars) := by
  induction es generalizing position n with
  | nil => exact typed_nil (le_refl n)
  | cons e es ihes =>
    rw [Lowerer.args]
    have hfirst := typed_asOperand (ih e List.mem_cons_self (argUse formals position) n)
    have hrest := ihes (fun e' he' ↦ ih e' (List.mem_cons_of_mem e he')) (position + 1)
      (asOperand (l.expr e (argUse formals position)) n).2
    refine (hfirst.append hrest).of_subset fun v hv ↦ ?_
    simp only [Draw.bind_apply, Draw.pure_apply, gather_append, List.flatMap_cons,
      List.mem_append] at hv ⊢
    grind

theorem typed_callArgs {es : List Expr}
    (ih : ∀ e ∈ es, ∀ use n, Typed V n (l.expr e use n).2 (l.expr e use n).1.vars)
    (formals : List (Ty × Bool)) (n : Names) :
    Typed V n (l.callArgs formals es n).2 (gather Instr.typedVars (l.callArgs formals es n).1.1
      ++ (l.callArgs formals es n).1.2.flatMap Operand.typedVars) := by
  rw [callArgs]
  cases l.packedType? formals es with
  | none => exact l.typed_args ih formals 0 n
  | some element =>
    have hpacked := typed_asOperand
      (typed_packed es.length element (fun name n ↦ l.typed_stores ih name element 0 n) n)
    show Typed V n _ (_ ++ [_].flatMap Operand.typedVars)
    rw [List.flatMap_singleton]
    exact hpacked

theorem typed_finishCall {code : List Item} {caller : Operand} {args : List Operand}
    (h : Typed V n n'
      (gather Instr.typedVars code ++ (caller.typedVars ++ args.flatMap Operand.typedVars)))
    (e : Expr) (onImport : Bool) (method : String) (use : Use) :
    Typed V n (l.finishCall e onImport code caller method args use n').2
      (l.finishCall e onImport code caller method args use n').1.vars := by
  rw [finishCall]
  split
  · refine h.of_subset fun v hv ↦ ?_
    cases onImport <;> simpa [Lowered.vars] using hv
  · exact typed_stored (by rwa [typedVars_call])

/-! ## Expressions -/

/-- What is indexed is an array, unless the name of a vararg means an import. -/
theorem exists_operandType_array
    (hvararg : ∀ x, l.scopes.isVararg x l.decl.name = true → l.table.isImport x = false)
    {array position : Expr} {span : Span}
    (h : l.site.typeOf (.index array position span) ≠ .error) :
    ∃ element, l.operandType array = .array element := by
  rcases Site.typeOf_index_cases h with helement | ⟨helement, hname, _⟩
  · have hne : ∀ t : Jmm.Ty, t.element? = none → l.site.typeOf array ≠ t := by
      rintro t ht rfl
      rw [ht] at helement
      cases helement
    have harray : (l.site.typeOf array).isArray = true := by
      rw [Jmm.Ty.isArray_eq_isSome, helement]
      rfl
    have htype : l.typeOf array.unparen
        = .array (.ofTy (l.site.typeOf (.index array position span))) := by
      rw [Lowerer.typeOf, Site.typeOf_unparen, Ty.ofBinding_of_isArray harray,
        Ty.ofTy_of_element? helement]
    have hvoid : l.typeOf array.unparen = .void → Use.operand.callType = .void := by
      intro h
      rw [htype] at h
      cases h
    rw [← l.valueType_operand, l.valueType_eq_typeOf (hne .error rfl) (hne .imported rfl) hvoid,
      htype]
    exact ⟨_, rfl⟩
  · cases array with
    | ident name s =>
      have harray : (l.site.identType name).isArray = false := by
        rw [Jmm.Ty.isArray_eq_isSome]
        exact congrArg Option.isSome helement
      have hisVararg : l.scopes.isVararg name l.decl.name = true := hname
      rw [operandType, hvararg name hisVararg, if_neg Bool.false_ne_true, nameType,
        hisVararg, Ty.ofBinding_true harray]
      exact ⟨_, rfl⟩
    | _ => cases hname

/-- The expressions in an expression have types. -/
def IsTyped (e : Expr) : Prop := ∀ e' ∈ e.parts, l.site.typeOf e' ≠ .error

variable {l} in
theorem IsTyped.self {e : Expr} (h : l.IsTyped e) : l.site.typeOf e ≠ .error := by
  refine h e ?_
  rw [Expr.parts_eq]
  exact List.mem_cons_self

variable {l} in
theorem IsTyped.child {e e' : Expr} (h : l.IsTyped e) (hchild : e' ∈ e.children) :
    l.IsTyped e' := by
  intro e'' he''
  refine h e'' ?_
  rw [Expr.parts_eq]
  exact List.mem_cons_of_mem _ (List.mem_flatMap.mpr ⟨e', hchild, he''⟩)

/-- No import is called like a vararg, and no variable like something generated. -/
structure PlainNames : Prop where
  vararg : ∀ x, l.scopes.isVararg x l.decl.name = true → l.table.isImport x = false
  var : ∀ x, l.table.isImport x = false → l.scopes.isField x l.decl.name = false →
    l.site.identType x ≠ .error → ¬ IsGenerated x

theorem typed_ident (hnames : l.PlainNames) {name : String} {span : Span}
    (h : l.IsTyped (.ident name span)) (n : Names) :
    Typed l.nameType n (l.ident name n).2 (l.ident name n).1.vars := by
  rw [Lowerer.ident]
  split
  · exact typed_nil (le_refl n)
  · rename_i himport
    dsimp only
    split
    · exact typed_stored (typed_nil (le_refl n))
    · rename_i hfield
      exact typed_known (hnames.var name (Bool.eq_false_iff.mpr himport)
        (Bool.eq_false_iff.mpr hfield) h.self) n

/-- **The variables in a lowered expression have one type each.** -/
theorem typed_expr (hnames : l.PlainNames) (e : Expr)
    (h : l.IsTyped e) :
    ∀ use n, Typed l.nameType n (l.expr e use n).2 (l.expr e use n).1.vars := by
  induction e with
  | int | bool | self => exact fun _ n ↦ typed_nil (le_refl n)
  | ident name span => exact fun _ ↦ l.typed_ident hnames h
  | paren inner span ih => exact fun use ↦ ih (h.child List.mem_cons_self) use.inParens
  | arrayLit elements span ih =>
    have hall := fun e he ↦ ih e he (h.child he)
    exact fun _ ↦ typed_packed _ _ fun name ↦ l.typed_stores hall name .int32 0
  | not operand span ih =>
    intro _ n
    have hoperand := typed_asOperand (ih (h.child List.mem_cons_self) .operand n)
    refine hoperand.of_subset fun v hv ↦ ?_
    simpa [Lowerer.expr, Lowered.vars, Instr.typedVars, Instr.operands] using hv
  | index array position span iha ihp =>
    intro use n
    have harray := typed_asVar (iha (h.child List.mem_cons_self) .operand n)
    have htype := l.type_var array n
    obtain ⟨element, helement⟩ := l.exists_operandType_array hnames.vararg h.self
    rcases h₁ : asVar (l.expr array .operand) n with ⟨⟨code₁, name, t⟩, n₁⟩
    have hposition := typed_asOperand
      (ihp (h.child (List.mem_cons_of_mem _ List.mem_cons_self)) .operand n₁)
    rcases h₂ : asOperand (l.expr position .operand) n₁ with ⟨⟨code₂, index⟩, n₂⟩
    rw [h₁] at harray htype
    rw [h₂] at hposition
    obtain rfl : t = .array element := htype.trans helement
    have hcode := harray.append hposition
    rcases l.expr_index h₁ h₂ span use with ⟨_, heq⟩ | ⟨_, heq⟩
    · rw [heq]
      refine hcode.of_subset fun v hv ↦ ?_
      simp [Lowered.vars, Operand.typedVars, Ty.elementOrInt, Ty.element?] at hv ⊢
      grind
    · rw [heq]
      refine (hcode.append (typed_next .temp rfl n₂ element)).of_subset fun v hv ↦ ?_
      simp [Lowered.vars, Operand.typedVars, Ty.elementOrInt, Ty.element?] at hv ⊢
      grind
  | binary op left right span ihl ihr =>
    intro use n
    have hleft := ihl (h.child List.mem_cons_self) .operand n
    have hright := ihr (h.child (List.mem_cons_of_mem _ List.mem_cons_self)) .operand
      (l.expr left .operand n).2
    rw [l.expr_binary]
    cases op with
    | and | or => exact typed_shortCircuit hleft hright _ _
    | _ => exact typed_operation hleft hright _ _ _
  | call receiver method args span ihr iha =>
    intro use n
    have hcaller := typed_asOperand (ihr (h.child List.mem_cons_self) .operand n)
    have hargs := l.typed_callArgs (fun e he ↦ iha e he (h.child (List.mem_cons_of_mem _ he)))
      (l.formals receiver method) (asOperand (l.expr receiver .operand) n).2
    rw [l.expr_call]
    refine l.typed_finishCall ((hcaller.append hargs).of_subset fun v hv ↦ ?_) _ _ _ _
    simp only [gather_append, List.mem_append] at hv ⊢
    grind
  | newArray element size span ih =>
    intro _ n
    have hsize := typed_asOperand (ih (h.child List.mem_cons_self) .operand n)
    refine hsize.of_subset fun v hv ↦ ?_
    simpa [Lowerer.expr, Lowered.vars, Call.newArray, Operand.typedVars] using hv
  | newObject className span =>
    intro _ n
    have hobject : Typed l.nameType n (materialize (.call (Call.newObject className)) n).2 _ :=
      (typed_nil (le_refl n)).materialize (List.Subset.refl [])
    refine hobject.of_subset fun v hv ↦ ?_
    simpa [Lowerer.expr, Lowered.vars, Call.construct] using hv
  | length array span ih =>
    intro use n
    have harray := typed_asVar (ih (h.child List.mem_cons_self) .operand n)
    rw [l.expr_length]
    refine typed_stored (harray.of_subset fun v hv ↦ ?_)
    simpa [Call.lengthOf, Operand.typedVars] using hv

/-! ## Statements -/

/-- Expressions have types and no generated variables, and statements do not assign to imports with
generated names. -/
structure AllTyped (es : List Expr) (sts : List Stmt) : Prop where
  exprs : ∀ e ∈ es, l.IsTyped e
  assigned : ∀ name span value span', .assign (.ident name span) value span' ∈ sts →
    l.table.isImport name = true → ¬ IsGenerated name

variable {l} in
theorem AllTyped.mono {es es' : List Expr} {sts sts' : List Stmt} (h : l.AllTyped es sts)
    (hes : es' ⊆ es) (hsts : sts' ⊆ sts) : l.AllTyped es' sts' :=
  ⟨fun e he ↦ h.exprs e (hes he), fun name span value span' hst ↦
    h.assigned name span value span' (hsts hst)⟩

theorem typed_assign (hnames : l.PlainNames)
    {target value : Expr} (htarget : l.IsTyped target) (hvalue : l.IsTyped value)
    (hassigned : ∀ name span, target = .ident name span → l.table.isImport name = true →
      ¬ IsGenerated name) (n : Names) :
    Typed l.nameType n (l.assign target value n).2
      (gather Instr.typedVars (l.assign target value n).1) := by
  have hexpr : ∀ use n, Typed l.nameType n (l.expr value use n).2 (l.expr value use n).1.vars :=
    l.typed_expr hnames value hvalue
  cases target with
  | ident name span =>
    rw [Lowerer.assign]
    dsimp only
    split
    · refine (typed_asOperand (hexpr _ n)).of_subset fun v hv ↦ ?_
      simpa [Instr.typedVars, Instr.operands, Lowerer.receiver, Operand.typedVars] using hv
    · rename_i hfield
      have hplain : ¬ IsGenerated name := by
        by_cases himport : l.table.isImport name = true
        · exact hassigned name span rfl himport
        · exact hnames.var name (Bool.eq_false_iff.mpr himport) (Bool.eq_false_iff.mpr hfield)
            htarget.self
      refine ((hexpr _ n).append (typed_known hplain _)).of_subset fun v hv ↦ ?_
      have htype : l.typeOf (.ident name span) = l.nameType name := rfl
      simp [Lowered.vars, htype] at hv ⊢
      grind
  | index array position span =>
    have harray := typed_asVar (l.typed_expr hnames array (htarget.child List.mem_cons_self)
      .operand n)
    have htype := l.type_var array n
    obtain ⟨element, helement⟩ := l.exists_operandType_array hnames.vararg htarget.self
    rcases h₁ : asVar (l.expr array .operand) n with ⟨⟨code₁, name, t⟩, n₁⟩
    have hposition := typed_asOperand (l.typed_expr hnames position
      (htarget.child (List.mem_cons_of_mem _ List.mem_cons_self)) .operand n₁)
    rcases h₂ : asOperand (l.expr position .operand) n₁ with ⟨⟨code₂, index⟩, n₂⟩
    rw [h₁] at harray htype
    rw [h₂] at hposition
    obtain rfl : t = .array element := htype.trans helement
    have heq : l.assign (.index array position span) value n
        = (code₁ ++ code₂ ++ (l.expr value (.assign element) n₂).1.code
            ++ [.instr (.assign (.element name index element) element
              (l.expr value (.assign element) n₂).1.value)],
          (l.expr value (.assign element) n₂).2) := by
      rw [Lowerer.assign]
      simp only [Draw.bind_apply, h₁, h₂]
      rfl
    rw [heq]
    refine ((harray.append hposition).append (hexpr (.assign element) n₂)).of_subset fun v hv ↦ ?_
    simp [Lowered.vars, Operand.typedVars] at hv ⊢
    grind
  | _ => exact (hexpr .operand n).of_subset (List.subset_append_left _ _)

theorem typed_stmts {sts : List Stmt}
    (ih : ∀ st ∈ sts, l.AllTyped st.exprs st.parts → ∀ n,
      Typed l.nameType n (l.stmt st n).2 (gather Instr.typedVars (l.stmt st n).1))
    (h : l.AllTyped (Stmt.exprsAll sts) (Stmt.partsAll sts)) (n : Names) :
    Typed l.nameType n (l.stmts sts n).2 (gather Instr.typedVars (l.stmts sts n).1) := by
  induction sts generalizing n with
  | nil => exact typed_nil (le_refl n)
  | cons st sts ihs =>
    obtain ⟨ihst, ihsts⟩ := List.forall_mem_cons.mp ih
    have hfirst := ihst (h.mono (List.subset_append_left _ _) (List.subset_append_left _ _)) n
    have hrest := ihs ihsts
      (h.mono (List.subset_append_right _ _) (List.subset_append_right _ _)) (l.stmt st n).2
    rw [Lowerer.stmts]
    simp only [Draw.bind_apply, Draw.pure_apply, gather_append]
    exact hfirst.append hrest

/-- The variables in a lowered statement have one type each. -/
theorem typed_stmt (hnames : l.PlainNames) (st : Stmt)
    (h : l.AllTyped st.exprs st.parts) :
    ∀ n, Typed l.nameType n (l.stmt st n).2 (gather Instr.typedVars (l.stmt st n).1) := by
  have hexpr : ∀ e, l.IsTyped e → ∀ use n,
      Typed l.nameType n (l.expr e use n).2 (l.expr e use n).1.vars := l.typed_expr hnames
  induction st with
  | assign target value span =>
    intro n
    refine l.typed_assign hnames (h.exprs target List.mem_cons_self)
      (h.exprs value (List.mem_cons_of_mem _ List.mem_cons_self)) ?_ n
    rintro name span' rfl
    exact h.assigned name span' value span List.mem_cons_self
  | expr e span =>
    intro n
    refine (hexpr e (h.exprs e List.mem_cons_self) .statement n).of_subset ?_
    rw [Lowerer.stmt, Lowerer.exprStmt]
    simp only [Draw.bind_apply, Draw.pure_apply]
    split
    · rw [gather_append, gather_instr, gather_nil, List.append_nil]
      exact List.Subset.refl _
    · exact List.subset_append_left _ _
  | ret value span =>
    intro n
    cases value with
    | none => exact typed_nil (le_refl n)
    | some e =>
      have hvalue := typed_asOperand (hexpr e (h.exprs e List.mem_cons_self) .operand n)
      refine hvalue.of_subset fun v hv ↦ ?_
      simpa [Lowerer.stmt, Lowerer.ret, Instr.typedVars, Instr.operands] using hv
  | cond test thenBranch elseBranch span iht ihe =>
    intro n
    have hlabels : n ≤ (n.bump .ifBody).bump .endIf :=
      (Names.le_bump n .ifBody).trans (Names.le_bump _ .endIf)
    have htest := hexpr test (h.exprs test List.mem_cons_self) .condition
      ((n.bump .ifBody).bump .endIf)
    have helse := l.typed_stmts ihe (h.mono
      (List.subset_cons_of_subset _ (List.subset_append_right _ _))
      (List.subset_cons_of_subset _ (List.subset_append_right _ _)))
      (l.expr test .condition ((n.bump .ifBody).bump .endIf)).2
    have hthen := l.typed_stmts iht (h.mono
      (List.subset_cons_of_subset _ (List.subset_append_left _ _))
      (List.subset_cons_of_subset _ (List.subset_append_left _ _)))
      (l.stmts elseBranch (l.expr test .condition ((n.bump .ifBody).bump .endIf)).2).2
    rw [Lowerer.stmt]
    refine ((((typed_nil hlabels).append htest).append helse).append hthen).of_subset fun v hv ↦ ?_
    simp [Lowered.vars] at hv ⊢
    grind
  | loop test body span ih =>
    intro n
    have htest := hexpr test (h.exprs test List.mem_cons_self) .condition n
    have hlabels : (l.expr test .condition n).2
        ≤ ((l.expr test .condition n).2.bump .whileBody).bump .endWhile :=
      (Names.le_bump _ .whileBody).trans (Names.le_bump _ .endWhile)
    have hbody := l.typed_stmts ih (h.mono
      (List.subset_cons_of_subset _ (List.Subset.refl _))
      (List.subset_cons_of_subset _ (List.Subset.refl _)))
      (((l.expr test .condition n).2.bump .whileBody).bump .endWhile)
    rw [Lowerer.stmt]
    refine ((htest.later hlabels).append hbody).of_subset fun v hv ↦ ?_
    simp [Lowered.vars] at hv ⊢
    grind

/-! ## Methods -/

theorem typed_code (hnames : l.PlainNames)
    (h : l.AllTyped (Stmt.exprsAll l.decl.body) (Stmt.partsAll l.decl.body)) (n : Names) :
    Typed l.nameType n (l.stmts l.decl.body n).2 (gather Instr.typedVars (l.code n)) := by
  refine (l.typed_stmts (fun st _ ↦ l.typed_stmt hnames st) h n).of_subset fun v hv ↦ ?_
  rw [Lowerer.code, gather_append, List.mem_append] at hv
  rcases hv with hv | hv
  · exact hv
  · split at hv <;> exact absurd hv List.not_mem_nil

/-- **The variables of a lowered method have one type each**, if its parameters have the types of
their names. -/
theorem typed_method (hnames : l.PlainNames)
    (h : l.AllTyped (Stmt.exprsAll l.decl.body) (Stmt.partsAll l.decl.body))
    (hparams : ∀ v ∈ l.params.flatMap Operand.typedVars, ¬ IsGenerated v.1 ∧ v.2 = l.nameType v.1)
    (n : Names) :
    Typed l.nameType n (l.stmts l.decl.body n).2 (l.method n).1.typedVars := by
  have hstart : Typed l.nameType n n (l.params.flatMap Operand.typedVars) := by
    refine ⟨le_refl n, fun v hv ↦ .inr (hparams v hv), fun v hv w hw heq ↦ ?_⟩
    rw [(hparams v hv).2, (hparams w hw).2, heq]
  rw [Method.typedVars, l.instrs_method, l.params_method]
  exact hstart.append (l.typed_code hnames h n)

end Lowerer
end Ollir

theorem Site.exists_lookup {s : Site} {x : String} (himport : s.table.isImport x = false)
    (h : s.identType x ≠ .error) : ∃ e, s.scopes.lookup x s.method = some e := by
  rw [identType, himport, if_neg Bool.false_ne_true] at h
  refine Option.isSome_iff_exists.mp (Option.isSome_iff_ne_none.mpr fun hnone ↦ h ?_)
  rw [hnone]

section

open Ollir

variable {imports : List ImportDecl} {cls : ClassDecl} {d : MethodDecl}
  (hmethods : (cls.methods.map MethodDecl.name).Nodup) (hd : d ∈ cls.methods)
  (hnames : ∀ x ∈ d.variables,
    (Analysis.ofClass imports cls).table.isImport x = false ∧ ¬ IsGenerated x)

include hmethods hd hnames

theorem Analysis.plainNames : ((ofClass imports cls).lowerer d).PlainNames where
  vararg x hx := (hnames x (mem_variables_of_isVararg hmethods hd hx)).1
  var x himport hfield htype := by
    obtain ⟨e, he⟩ : ∃ e, (ofClass imports cls).scopes.lookup x d.name = some e :=
      Site.exists_lookup himport htype
    refine (hnames x (mem_variables_of_lookup hmethods hd he fun hkind ↦ ?_)).2
    have hisField : ((ofClass imports cls).scopes.isField x d.name) = true := by
      rw [Scopes.isField, he]
      exact beq_iff_eq.mpr hkind
    exact Bool.false_ne_true (hfield.symm.trans hisField)

variable (hvars : d.variables.Nodup)

include hvars

/-- The parameters of a method have the types of their names. -/
theorem Analysis.params_lowerer : ((ofClass imports cls).lowerer d).params
    = d.params.map fun p ↦ .var p.name (((ofClass imports cls).lowerer d).nameType p.name) := by
  have hsignature : (ofClass imports cls).table.method? d.name = some (Signature.ofDecl d) :=
    SymbolTable.method?_ofClass imports hmethods hd
  rw [Lowerer.params, lowerer, hsignature]
  refine (List.map_map ..).trans (List.map_congr_left fun p hp ↦ ?_)
  have hlookup : (ofClass imports cls).scopes.lookup p.name d.name
      = some (Scopes.ofParam d.name (Symbol.ofParam p)) := lookup_param hmethods hd hvars hp
  have htype : ((ofClass imports cls).lowerer d).site.identType p.name
      = (Scopes.ofParam d.name (Symbol.ofParam p)).type :=
    Site.identType_of_lookup (hnames p.name (List.mem_append_left _ (List.mem_map_of_mem hp))).1
      hlookup
  have hvararg : ((ofClass imports cls).lowerer d).scopes.isVararg p.name d.name
      = p.type.isVararg := isVararg_param hmethods hd hvars hp
  exact congrArg (Operand.var p.name) (congrArg₂ Ty.ofBinding htype hvararg).symm

end

/-- **A variable has one type in its method**, as a parameter and wherever the code reads or assigns
it, also as an array that is indexed.  The variable table binds it with this type, unless it is
called like the receiver of an instance method.  If the table has no more names than there are
slots, emitted code uses a slot in one family, unless it is slot 0 and the receiver shares it with a
variable.

The names of the methods are different, and those of the parameters and locals; these are not
imports, and neither they nor imports that are assigned to are generated.  Every expression has a
type. -/
theorem variables_have_one_type (imports : List ImportDecl) (cls : ClassDecl) (index : Nat)
    (d : MethodDecl) (hd : cls.methods[index]? = some d)
    (hmethods : (cls.methods.map MethodDecl.name).Nodup) (hvars : d.variables.Nodup)
    (hnames : ∀ x ∈ d.variables,
      (Analysis.ofClass imports cls).table.isImport x = false ∧ ¬ Ollir.IsGenerated x)
    (hassigned : ∀ name span value span',
      .assign (.ident name span) value span' ∈ Stmt.partsAll d.body →
      (Analysis.ofClass imports cls).table.isImport name = true → ¬ Ollir.IsGenerated name)
    (htyped : ∀ e ∈ Stmt.exprParts d.body,
      ((Analysis.ofClass imports cls).lowerer d).site.typeOf e ≠ .error) :
    let unit := (Analysis.ofClass imports cls).lower cls
    ∃ m, unit.methods[index]? = some m
      ∧ (∀ x t t', (x, t) ∈ m.typedVars → (x, t') ∈ m.typedVars → t = t')
      ∧ (∀ x t, (x, t) ∈ m.typedVars →
        ∃ b, (m.assignSlots unit.name).vars.get? x = some b
          ∧ (b.type = t ∨ d.isStatic = false ∧ x = Ollir.receiverName))
      ∧ ((m.assignSlots unit.name).vars.size ≤ UInt16.size → ∀ fusion jc,
        unit.assemble fusion = .ok jc →
        ∃ jm, jc.methods[index]? = some jm ∧ ∀ slot, slot ≠ 0 ∨ m.KeepsReceiver →
          ∃ family, ∀ o, .op o ∈ jm.lines → o.slot? = some slot → o.family? = some family) := by
  intro unit
  have hmem : d ∈ cls.methods := List.mem_of_getElem? hd
  have hplain := Analysis.plainNames hmethods hmem hnames
  have hparams := Analysis.params_lowerer hmethods hmem hnames hvars
  obtain ⟨n, hm⟩ := Ollir.lowerMethods_getElem? (Analysis.ofClass imports cls) hd {}
  set l := (Analysis.ofClass imports cls).lowerer d with hl
  have hbody : l.AllTyped (Stmt.exprsAll d.body) (Stmt.partsAll d.body) :=
    ⟨fun e he e' he' ↦ htyped e' (List.mem_flatMap.mpr ⟨e, he, he'⟩), hassigned⟩
  have hstart : ∀ v ∈ l.params.flatMap Ollir.Operand.typedVars,
      ¬ Ollir.IsGenerated v.1 ∧ v.2 = l.nameType v.1 := by
    intro v hv
    obtain ⟨o, ho, hv⟩ := List.mem_flatMap.mp hv
    rw [hparams] at ho
    obtain ⟨p, hp, rfl⟩ := List.mem_map.mp ho
    obtain rfl := List.mem_singleton.mp hv
    exact ⟨(hnames p.name (List.mem_append_left _ (List.mem_map_of_mem hp))).2, rfl⟩
  have hsingle := (l.typed_method hplain hbody hstart n).single
  have htable : ((l.method n).1.assignSlots unit.name).vars = (l.method n).1.table unit.name := by
    rw [Ollir.Method.assignSlots, if_pos (l.isEmpty_vars_method n)]
  refine ⟨_, hm, fun x t t' h h' ↦ hsingle _ h _ h' rfl, fun x t h ↦ ?_, fun hsize fusion jc hjc ↦
    Jasmin.family_assemble hjc hm (l.isEmpty_vars_method n) (htable ▸ hsize) hsingle⟩
  rw [htable]
  have hbound : ((l.method n).1.table unit.name).contains x = true := by
    refine Ollir.Method.contains_table_of_typedVars unit.name (fun o ho ↦ ?_) h
    rw [l.params_method, hparams] at ho
    obtain ⟨p, _, rfl⟩ := List.mem_map.mp ho
    exact ⟨_, _, rfl⟩
  rw [Ollir.VarTable.contains_eq_isSome] at hbound
  obtain ⟨b, hb⟩ := Option.isSome_iff_exists.mp hbound
  refine ⟨b, hb, ?_⟩
  rcases Ollir.Method.type_table hb with htype | ⟨hstatic, hname⟩
  · exact .inl (hsingle (x, b.type) htype (x, t) h rfl)
  · rw [l.isStatic_method] at hstatic
    exact .inr ⟨hstatic, hname⟩

/-- A class with a method that adds its index to each element of a vararg in turn, and stores the
results in an array of its own. -/
def ClassDecl.shifting : ClassDecl :=
  let int : TypeName := { name := "int" }
  let xs : Expr := .ident "xs" {}
  let ys : Expr := .ident "ys" {}
  let i : Expr := .ident "i" {}
  { name := "Main", superclass := none, fields := []
    methods := [
      { name := "shift", isPublic := true, isStatic := false, returns := int
        params := [{ name := "xs", type := { int with isVararg := true } }]
        locals := [{ name := "ys", type := { int with isArray := true } },
          { name := "i", type := int }]
        body := [
          .assign ys (.newArray "int" (.length xs {}) {}) {},
          .assign i (.int 0 {}) {},
          .loop (.binary .less i (.length xs {}) {}) [
            .assign (.index ys i {}) (.binary .add (.index xs i {}) i {}) {},
            .assign i (.binary .add i (.int 1 {}) {}) {}] {},
          .ret (some (.index ys (.int 0 {}) {})) {}] }] }

/-- The statement for a vararg: it is declared as an integer, and an array wherever it occurs. -/
theorem variables_have_one_type_of_vararg :
    let cls := ClassDecl.shifting
    let unit := (Analysis.ofClass [] cls).lower cls
    ∃ m, unit.methods[0]? = some m
      ∧ ("xs", .array .int32) ∈ m.typedVars ∧ ("i", .int32) ∈ m.typedVars
      ∧ (∀ x t t', (x, t) ∈ m.typedVars → (x, t') ∈ m.typedVars → t = t')
      ∧ ∃ jc jm, unit.assemble true = .ok jc ∧ jc.methods[0]? = some jm ∧ ∀ slot,
          ∃ family, ∀ o, .op o ∈ jm.lines → o.slot? = some slot → o.family? = some family := by
  intro cls unit
  have hheads : ∀ d ∈ cls.methods, ∀ x ∈ d.variables,
      x.toList.head? ≠ some 't' ∧ x.toList.head? ≠ some '_' := by decide
  have htyped : ∀ d ∈ cls.methods, ∀ e ∈ Stmt.exprParts d.body,
      ((Analysis.ofClass [] cls).lowerer d).site.typeOf e ≠ .error := by decide +kernel
  have hshape : unit.methods[0]?.map (fun m ↦ decide (("xs", .array .int32) ∈ m.typedVars
      ∧ ("i", .int32) ∈ m.typedVars ∧ m.isStatic = false
      ∧ (m.assignSlots unit.name).vars.size ≤ UInt16.size
      ∧ ∀ v ∈ m.typedVars, v.1 ≠ Ollir.receiverName)) = some true := by decide +kernel
  have hok : (unit.assemble true).isOk = true := by decide +kernel
  obtain ⟨m, hm, hsingle, _, hfamily⟩ := variables_have_one_type [] cls 0 _ rfl (by decide)
    (by decide) (fun x hx ↦ ⟨rfl, fun h ↦
      have hx := hheads _ List.mem_cons_self x hx
      h.head?.elim hx.1 hx.2⟩)
    (fun _ _ _ _ _ h ↦ Bool.noConfusion h) (htyped _ List.mem_cons_self)
  rw [hm] at hshape
  obtain ⟨hxs, hi, hstatic, hsize, hself⟩ := of_decide_eq_true (Option.some.inj hshape)
  have hkeeps : m.KeepsReceiver := by
    rw [Ollir.Method.KeepsReceiver, hstatic]
    exact hself
  obtain ⟨jc, hjc⟩ := Jasmin.exists_of_isOk hok
  obtain ⟨jm, hjm, hfamily⟩ := hfamily hsize true jc hjc
  exact ⟨m, hm, hxs, hi, hsingle, jc, jm, hjc, hjm, fun slot ↦ hfamily slot (.inr hkeeps)⟩

/-- A parameter may be called `this`.  It does not get a slot then, but reads and writes that of the
receiver, which is loaded from there as well. -/
theorem parameter_shares_receiver_slot :
    let int : TypeName := { name := "int" }
    let d : MethodDecl :=
      { name := "f", isPublic := true, isStatic := false, returns := int,
        params := [{ name := "this", type := int }], locals := [],
        body := [.ret (some (.binary .add (.ident "this" {}) (.ident "count" {}) {})) {}] }
    let cls : ClassDecl :=
      { name := "Main", superclass := none, fields := [{ name := "count", type := int }],
        methods := [d] }
    let a := Analysis.ofClass [] cls
    a.violations = [] ∧ (cls.methods.map MethodDecl.name).Nodup ∧ d.variables.Nodup
      ∧ (∀ x ∈ d.variables, a.table.isImport x = false ∧ ¬ Ollir.IsGenerated x)
      ∧ (∀ e ∈ Stmt.exprParts d.body, (a.lowerer d).site.typeOf e ≠ .error)
      ∧ (a.lower cls).methods.map (fun m ↦ (m.params, (m.table "Main").get? "this"))
        = [([.var "this" .int32], some ⟨.receiver, 0, .named "Main"⟩)]
      ∧ ((a.lower cls).assemble true).toOption.map (fun jc ↦ jc.methods.map (·.lines))
        = some [[.op (.load .reference 0), .op (.getField "Main" "count" .int),
            .op (.store .int 1), .op (.load .int 0), .op (.load .int 1), .op (.arith .add),
            .op (.store .int 2), .op (.load .int 2), .op (.ret .int)]] := by
  intro int d cls a
  have hplain : ∀ x ∈ d.variables, a.table.isImport x = false ∧ ¬ Ollir.IsGenerated x := by
    intro x hx
    obtain rfl := List.mem_singleton.mp hx
    have hlast : Ollir.EndsOutsideDigits "this" := by
      unfold Ollir.EndsOutsideDigits
      decide
    exact ⟨rfl, fun h ↦ h.not_endsOutsideDigits hlast⟩
  exact ⟨by decide +kernel, by decide, by decide, hplain, by decide +kernel, by decide +kernel,
    by decide +kernel⟩

end Jmm
