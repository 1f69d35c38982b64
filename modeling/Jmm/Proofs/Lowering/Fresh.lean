import Jmm.Ollir.Lowering
import Jmm.Proofs.GeneratedNames
import Mathlib.Data.List.Nodup
import Mathlib.Data.List.Perm.Basic

/-!
# What lowered code labels, writes and reads

Lowering threads the counters of generated names through every step.  `Draws n n' code` says what
code made between two states of the counters contains: its labels are new and pairwise different,
and the variables it assigns to are exactly the new ones.  The value that goes with the code reads
new variables and those of the expression, and nothing else.

`Lowerer.expr_fresh` is the statement for expressions; the lemmas before it give one statement for
each of the functions expressions are lowered with, in the same form.
-/

set_option autoImplicit false

namespace Jmm

/-- Induction over expressions, with the elements and arguments as lists. -/
@[elab_as_elim, induction_eliminator]
theorem Expr.induct {P : Expr → Prop}
    (int : ∀ value span, P (.int value span)) (bool : ∀ value span, P (.bool value span))
    (ident : ∀ name span, P (.ident name span)) (self : ∀ span, P (.self span))
    (paren : ∀ inner span, P inner → P (.paren inner span))
    (arrayLit : ∀ elements span, (∀ e ∈ elements, P e) → P (.arrayLit elements span))
    (not : ∀ operand span, P operand → P (.not operand span))
    (index : ∀ array position span, P array → P position → P (.index array position span))
    (binary : ∀ op left right span, P left → P right → P (.binary op left right span))
    (call : ∀ receiver method args span, P receiver → (∀ e ∈ args, P e) →
      P (.call receiver method args span))
    (newArray : ∀ element size span, P size → P (.newArray element size span))
    (newObject : ∀ className span, P (.newObject className span))
    (length : ∀ array span, P array → P (.length array span)) (e : Expr) : P e :=
  @Expr.rec P (fun es ↦ ∀ e ∈ es, P e) int bool ident self paren arrayLit not index binary
    call newArray newObject length (fun _ he ↦ absurd he List.not_mem_nil)
    (fun _ _ hhead htail e he ↦ by
      rcases List.mem_cons.mp he with rfl | he
      · exact hhead
      · exact htail e he) e

namespace Site

mutual

/-- The variables of an expression: the names in it that mean neither an import nor a field. -/
def vars (s : Site) : Expr → List String
  | .int _ _ | .bool _ _ | .self _ | .newObject _ _ => []
  | .ident name _ =>
    if s.table.isImport name || s.scopes.isField name s.method then [] else [name]
  | .paren inner _ => s.vars inner
  | .arrayLit elements _ => s.varsAll elements
  | .not operand _ => s.vars operand
  | .index array position _ => s.vars array ++ s.vars position
  | .binary _ left right _ => s.vars left ++ s.vars right
  | .call receiver _ args _ => s.vars receiver ++ s.varsAll args
  | .newArray _ size _ => s.vars size
  | .length array _ => s.vars array

/-- The variables of expressions. -/
def varsAll (s : Site) : List Expr → List String
  | [] => []
  | e :: es => s.vars e ++ s.varsAll es

end

end Site

namespace Ollir

/-! ## Labels, writes and reads of code -/

/-- The name of a label. -/
def Item.label? : Item → Option String
  | label name => some name
  | instr _ => none

/-- The labels in code. -/
def labelsOf (code : List Item) : List String := code.filterMap Item.label?

/-- The variable that an instruction assigns to. -/
def Item.write? : Item → Option String
  | instr (.assign (.var x _) _ _) => some x
  | _ => none

@[inherit_doc Item.write?]
def Instr.write? (i : Instr) : Option String := Item.write? (.instr i)

/-- The variables that code assigns to. -/
def writesOf (code : List Item) : List String := code.filterMap Item.write?

@[simp] theorem labelsOf_nil : labelsOf [] = [] := rfl

@[simp] theorem labelsOf_append (a b : List Item) : labelsOf (a ++ b) = labelsOf a ++ labelsOf b :=
  List.filterMap_append

@[simp] theorem labelsOf_label (name : String) (code : List Item) :
    labelsOf (.label name :: code) = name :: labelsOf code := rfl

@[simp] theorem labelsOf_instr (i : Instr) (code : List Item) :
    labelsOf (.instr i :: code) = labelsOf code := rfl

@[simp] theorem labelsOf_assignVar (x : String) (t : Ty) (value : Instr) (code : List Item) :
    labelsOf (assignVar x t value :: code) = labelsOf code := rfl

@[simp] theorem writesOf_nil : writesOf [] = [] := rfl

@[simp] theorem writesOf_append (a b : List Item) : writesOf (a ++ b) = writesOf a ++ writesOf b :=
  List.filterMap_append

@[simp] theorem writesOf_label (name : String) (code : List Item) :
    writesOf (.label name :: code) = writesOf code := rfl

@[simp] theorem writesOf_assignVar (x : String) (t : Ty) (value : Instr) (code : List Item) :
    writesOf (assignVar x t value :: code) = x :: writesOf code := rfl

theorem writesOf_instr {i : Instr} (h : Item.write? (.instr i) = none) (code : List Item) :
    writesOf (.instr i :: code) = writesOf code := List.filterMap_cons_none h

/-- The variables an operand reads. -/
def Operand.reads : Operand → List String
  | var name _ => [name]
  | element name index _ => name :: index.reads
  | _ => []

/-- The variables an instruction reads. -/
def Instr.reads : Instr → List String
  | assign (.element name index _) _ value => name :: (index.reads ++ value.reads)
  | assign _ _ value => value.reads
  | single o => o.reads
  | binary _ left right _ => left.reads ++ right.reads
  | not o _ => o.reads
  | call c => c.caller.reads ++ c.args.flatMap Operand.reads
  | getField object _ _ => object.reads
  | putField object _ _ value => object.reads ++ value.reads
  | branch test _ => test.reads
  | goto _ => []
  | ret _ (some o) => o.reads
  | ret _ none => []

/-! ## Drawing -/

section Draw

variable {α β : Type}

@[simp] theorem Draw.bind_apply (x : Draw α) (f : α → Draw β) (n : Names) :
    (x >>= f) n = f (x n).1 (x n).2 := rfl

@[simp] theorem Draw.map_apply (f : α → β) (x : Draw α) (n : Names) :
    (f <$> x) n = (f (x n).1, (x n).2) := rfl

@[simp] theorem Draw.pure_apply (a : α) (n : Names) : (pure a : Draw α) n = (a, n) := rfl

@[simp] theorem draw_apply (k : NameKind) (n : Names) :
    draw k n = (k.name (n.count k), n.bump k) := rfl

end Draw

/-- A value is an operand already, or it is stored in the next temporary. -/
theorem materialize_cases (value : Instr) (n : Names) :
    (∃ o, value = .single o ∧ materialize value n = (([], o), n))
      ∨ (∀ o, value ≠ .single o)
        ∧ materialize value n
          = (([assignVar (NameKind.temp.name (n.count .temp)) value.resultType value],
              .var (NameKind.temp.name (n.count .temp)) value.resultType), n.bump .temp) := by
  cases value with
  | single o => exact .inl ⟨o, rfl, rfl⟩
  | _ => exact .inr ⟨fun _ h ↦ Instr.noConfusion h, rfl⟩

/-- Labels that are new between two states of the counters, each of them once. -/
def LabelsIn (n n' : Names) (labels : List String) : Prop :=
  labels.Nodup ∧ ∀ x ∈ labels, n.NewLabel n' x

/-- Variables that are new between two states of the counters, or among given ones. -/
def ReadsIn (n n' : Names) (given xs : List String) : Prop := ∀ x ∈ xs, n.NewVar n' x ∨ x ∈ given

/-- What code made between two states of the counters contains: new labels, and assignments to the
variables that were drawn and to no others. -/
structure Draws (n n' : Names) (code : List Item) : Prop where
  le : n ≤ n'
  labels : LabelsIn n n' (labelsOf code)
  writes : ∀ x ∈ writesOf code, n.NewVar n' x
  drawn : ∀ x, n.NewVar n' x → x ∈ writesOf code

variable {n n' m m' : Names} {a b : List Item}

theorem LabelsIn.nil (n n' : Names) : LabelsIn n n' [] :=
  ⟨List.nodup_nil, fun _ h ↦ absurd h List.not_mem_nil⟩

theorem LabelsIn.mono {ls : List String} (h : LabelsIn n n' ls) (hm : m ≤ n) (hm' : n' ≤ m') :
    LabelsIn m m' ls :=
  ⟨h.1, fun x hx ↦ (h.2 x hx).mono hm hm'⟩

theorem LabelsIn.perm {ls ls' : List String} (h : LabelsIn n n' ls) (hp : ls.Perm ls') :
    LabelsIn n n' ls' :=
  ⟨hp.nodup_iff.mp h.1, fun x hx ↦ h.2 x (hp.mem_iff.mpr hx)⟩

theorem LabelsIn.append {ls ls' : List String} (h : LabelsIn n m ls) (h' : LabelsIn m n' ls')
    (hn : n ≤ m) (hm : m ≤ n') : LabelsIn n n' (ls ++ ls') := by
  refine ⟨List.nodup_append.mpr ⟨h.1, h'.1, ?_⟩, ?_⟩
  · rintro x hx y hy rfl
    exact (h.2 x hx).not_later (le_refl m) (h'.2 x hy)
  · intro x hx
    rcases List.mem_append.mp hx with hx | hx
    · exact (h.2 x hx).mono (le_refl n) hm
    · exact (h'.2 x hx).mono hn (le_refl n')

theorem LabelsIn.next {k : NameKind} (hk : k.isLabel = true) (n : Names) :
    LabelsIn n (n.bump k) [k.name (n.count k)] := by
  refine ⟨List.nodup_singleton _, ?_⟩
  intro x hx
  rw [List.mem_singleton] at hx
  exact hx ▸ Names.newLabel_next hk (le_refl _)

theorem ReadsIn.mono {xs ys zs : List String} (h : ReadsIn n n' ys xs) (hm : m ≤ n) (hm' : n' ≤ m')
    (hy : ys ⊆ zs) : ReadsIn m m' zs xs :=
  fun x hx ↦ (h x hx).imp (·.mono hm hm') (fun hy' ↦ hy hy')

theorem ReadsIn.append {xs ys zs : List String} (h : ReadsIn n n' zs xs) (h' : ReadsIn n n' zs ys) :
    ReadsIn n n' zs (xs ++ ys) :=
  fun x hx ↦ (List.mem_append.mp hx).elim (h x) (h' x)

theorem ReadsIn.nil (n n' : Names) (zs : List String) : ReadsIn n n' zs [] :=
  fun _ h ↦ absurd h List.not_mem_nil

namespace Draws

theorem nil (n : Names) : Draws n n [] :=
  ⟨le_refl n, LabelsIn.nil n n, fun _ h ↦ absurd h List.not_mem_nil,
    fun x h ↦ absurd h (n.not_newVar_self x)⟩

theorem append (h : Draws n m a) (h' : Draws m n' b) : Draws n n' (a ++ b) := by
  refine ⟨h.le.trans h'.le, ?_, ?_, fun x hx ↦ ?_⟩
  · rw [labelsOf_append]
    exact h.labels.append h'.labels h.le h'.le
  · intro x hx
    rw [writesOf_append, List.mem_append] at hx
    rcases hx with hx | hx
    · exact (h.writes x hx).mono (le_refl n) h'.le
    · exact (h'.writes x hx).mono h.le (le_refl n')
  · rw [writesOf_append, List.mem_append]
    exact (hx.split m).imp (h.drawn x) (h'.drawn x)

/-- Instructions without a label and assignments may follow. -/
theorem append_plain (h : Draws n n' a) (hl : labelsOf b = []) (hw : writesOf b = []) :
    Draws n n' (a ++ b) := by
  refine ⟨h.le, ?_, ?_, ?_⟩
  · rw [labelsOf_append, hl, List.append_nil]
    exact h.labels
  · rw [writesOf_append, hw, List.append_nil]
    exact h.writes
  · rw [writesOf_append, hw, List.append_nil]
    exact h.drawn

/-- An assignment to the next name of a kind of variable may follow. -/
theorem append_assign (h : Draws n n' a) (k : NameKind) (hk : k.isLabel = false) (t : Ty)
    (value : Instr) : Draws n (n'.bump k) (a ++ [assignVar (k.name (n'.count k)) t value]) := by
  refine h.append ⟨Names.le_bump n' k, LabelsIn.nil _ _, fun x hx ↦ ?_, fun x hx ↦ ?_⟩
  · rw [writesOf_assignVar, writesOf_nil, List.mem_singleton] at hx
    exact hx ▸ Names.newVar_next hk (le_refl _)
  · rw [hx.of_bump.2]
    exact List.mem_cons_self

end Draws

/-! ## The functions expressions are lowered with -/

/-- A lowered expression that reads new variables and given ones. -/
def FreshLowered (given : List String) (x : Draw Lowered) : Prop :=
  ∀ n, Draws n (x n).2 (x n).1.code ∧ ReadsIn n (x n).2 given (x n).1.value.reads

theorem asOperand_apply (x : Draw Lowered) (n : Names) :
    asOperand x n
      = (((x n).1.code ++ (materialize (x n).1.value (x n).2).1.1,
          (materialize (x n).1.value (x n).2).1.2), (materialize (x n).1.value (x n).2).2) := rfl

theorem stored_apply (code : List Item) (value : Instr) (n : Names) :
    stored code value n
      = (⟨code ++ (materialize value n).1.1, .single (materialize value n).1.2⟩,
          (materialize value n).2) := rfl

/-- The value of an expression is in a variable already, or it is stored in the next temporary. -/
theorem asVar_cases (x : Draw Lowered) (n : Names) :
    (∃ name t, (asOperand x n).1.2 = .var name t
        ∧ asVar x n = (((asOperand x n).1.1, name, t), (asOperand x n).2))
      ∨ (∀ name t, (asOperand x n).1.2 ≠ .var name t)
        ∧ asVar x n
          = (((asOperand x n).1.1
                ++ [assignVar (NameKind.temp.name ((asOperand x n).2.count .temp))
                  (asOperand x n).1.2.type (.single (asOperand x n).1.2)],
              NameKind.temp.name ((asOperand x n).2.count .temp), (asOperand x n).1.2.type),
            (asOperand x n).2.bump .temp) := by
  rw [asVar, Draw.bind_apply]
  rcases hx : asOperand x n with ⟨⟨code, o⟩, n'⟩
  cases o with
  | var name t => exact .inl ⟨name, t, rfl, rfl⟩
  | _ => exact .inr ⟨fun _ _ h ↦ Operand.noConfusion h, rfl⟩

/-- Storing a value keeps to new variables. -/
theorem Draws.materialize {code : List Item} (h : Draws n n' code) (value : Instr) :
    Draws n (materialize value n').2 (code ++ (materialize value n').1.1) := by
  rcases materialize_cases value n' with ⟨o, _, heq⟩ | ⟨_, heq⟩
  · rw [heq, List.append_nil]
    exact h
  · rw [heq]
    exact h.append_assign .temp rfl _ _

theorem labelsOf_materialize (value : Instr) (n : Names) :
    labelsOf (materialize value n).1.1 = [] := by
  rcases materialize_cases value n with ⟨o, _, heq⟩ | ⟨_, heq⟩ <;> rw [heq] <;> rfl

theorem ReadsIn.materialize {given : List String} {value : Instr}
    (h : ReadsIn n n' given value.reads)
    (hle : n ≤ n') :
    ReadsIn n (materialize value n').2 given (materialize value n').1.2.reads := by
  rcases materialize_cases value n' with ⟨o, rfl, heq⟩ | ⟨_, heq⟩
  · rw [heq]
    exact h
  · rw [heq]
    rintro x hx
    obtain rfl := List.mem_singleton.mp hx
    exact .inl ((Names.newVar_next (k := .temp) rfl (le_refl _)).mono hle (le_refl _))

variable {given : List String} {x : Draw Lowered}

theorem FreshLowered.asOperand (h : FreshLowered given x) (n : Names) :
    Draws n (asOperand x n).2 (asOperand x n).1.1
      ∧ ReadsIn n (asOperand x n).2 given (asOperand x n).1.2.reads := by
  rw [asOperand_apply]
  exact ⟨(h n).1.materialize _, (h n).2.materialize (h n).1.le⟩

theorem FreshLowered.asVar (h : FreshLowered given x) (n : Names) :
    Draws n (asVar x n).2 (asVar x n).1.1 ∧ ReadsIn n (asVar x n).2 given [(asVar x n).1.2.1] := by
  obtain ⟨hdraws, hreads⟩ := h.asOperand n
  rcases asVar_cases x n with ⟨name, t, ho, heq⟩ | ⟨_, heq⟩
  · rw [heq]
    rw [ho] at hreads
    exact ⟨hdraws, hreads⟩
  · rw [heq]
    refine ⟨hdraws.append_assign .temp rfl _ _, fun y hy ↦ .inl ?_⟩
    obtain rfl := List.mem_singleton.mp hy
    exact (Names.newVar_next (k := .temp) rfl (le_refl _)).mono hdraws.le (le_refl _)

theorem fresh_stored {code : List Item} (h : Draws n n' code) {value : Instr}
    (hreads : ReadsIn n n' given value.reads) :
    Draws n (stored code value n').2 (stored code value n').1.code
      ∧ ReadsIn n (stored code value n').2 given (stored code value n').1.value.reads := by
  rw [stored_apply]
  exact ⟨h.materialize value, hreads.materialize h.le⟩

/-- The code of `&&` and `||`, with the names it draws given. -/
theorem shortCircuit_apply (left right : Lowered) (t : Ty) (isOr : Bool) (n : Names) :
    ∃ trueLabel endLabel result,
      trueLabel = NameKind.trueLabel.name (n.count .trueLabel)
        ∧ endLabel = NameKind.endLabel.name (n.count .endLabel)
        ∧ result = NameKind.temp.name (n.count .temp)
        ∧ shortCircuit left right t isOr n
          = (⟨left.code ++ [.instr (.branch left.value trueLabel)]
                ++ (if isOr then right.code ++ [assignVar result t right.value]
                  else [assignVar result t (.single (Operand.bool isOr))])
                ++ [.instr (.goto endLabel), .label trueLabel]
                ++ (if isOr then [assignVar result t (.single (Operand.bool isOr))]
                  else right.code ++ [assignVar result t right.value])
                ++ [.label endLabel], .single (.var result t)⟩,
              ((n.bump .trueLabel).bump .endLabel).bump .temp) := by
  refine ⟨_, _, _, rfl, rfl, rfl, ?_⟩
  cases isOr <;> rfl

theorem fresh_shortCircuit {left right : Lowered} (hleft : Draws n m left.code)
    (hright : Draws m n' right.code) (t : Ty) (isOr : Bool) :
    Draws n (shortCircuit left right t isOr n').2 (shortCircuit left right t isOr n').1.code
      ∧ ReadsIn n (shortCircuit left right t isOr n').2 given
        (shortCircuit left right t isOr n').1.value.reads := by
  obtain ⟨trueLabel, endLabel, result, ht, he, hr, heq⟩ := shortCircuit_apply left right t isOr n'
  have hle := hleft.le.trans hright.le
  have htrue := Names.le_bump n' .trueLabel
  have hend := Names.le_bump (n'.bump .trueLabel) .endLabel
  have htemp := Names.le_bump ((n'.bump .trueLabel).bump .endLabel) .temp
  have hbumps := htrue.trans (hend.trans htemp)
  -- `endLabel` is counted on its own, so drawing the other label first does not change it
  have he' : endLabel = NameKind.endLabel.name ((n'.bump .trueLabel).count .endLabel) := he
  have hr' : result = NameKind.temp.name (((n'.bump .trueLabel).bump .endLabel).count .temp) := hr
  have hresult : n.NewVar (((n'.bump .trueLabel).bump .endLabel).bump .temp) result := by
    rw [hr']
    exact (Names.newVar_next rfl (le_refl _)).mono (hle.trans (htrue.trans hend)) (le_refl _)
  have hlabels : LabelsIn n ((n'.bump .trueLabel).bump .endLabel)
      (labelsOf left.code ++ labelsOf right.code ++ [trueLabel] ++ [endLabel]) := by
    refine LabelsIn.append (m := n'.bump .trueLabel) (LabelsIn.append (m := n')
      (hleft.labels.append hright.labels hleft.le hright.le) ?_ hle htrue) ?_ (hle.trans htrue) hend
    · rw [ht]
      exact LabelsIn.next rfl n'
    · rw [he']
      exact LabelsIn.next rfl _
  rw [heq]
  refine ⟨⟨hle.trans hbumps, ?_, ?_, ?_⟩, ?_⟩
  · refine (hlabels.mono (le_refl n) htemp).perm ?_
    cases isOr with
    | true => simp
    | false =>
      have hmiddle : (labelsOf right.code ++ trueLabel :: [endLabel]).Perm
          (trueLabel :: (labelsOf right.code ++ [endLabel])) := List.perm_middle
      convert hmiddle.append_left (labelsOf left.code) using 1 <;> simp
  · intro y hy
    have hy' : y ∈ writesOf left.code ∨ y ∈ writesOf right.code ∨ y = result := by
      cases isOr <;> simp [writesOf_instr (i := .branch _ _) rfl,
        writesOf_instr (i := .goto _) rfl] at hy <;> tauto
    rcases hy' with hy' | hy' | rfl
    · exact (hleft.writes y hy').mono (le_refl n) (hright.le.trans hbumps)
    · exact (hright.writes y hy').mono hleft.le hbumps
    · exact hresult
  · intro y hy
    have hy' : y ∈ writesOf left.code ∨ y ∈ writesOf right.code ∨ y = result := by
      rcases hy.split m with hy | hy
      · exact .inl (hleft.drawn y hy)
      · rcases hy.split n' with hy | hy
        · exact .inr (.inl (hright.drawn y hy))
        · -- the two labels are no variables
          rcases hy.split (n'.bump .trueLabel) with hy | hy
          · exact absurd hy.of_bump.1 (by decide)
          · rcases hy.split ((n'.bump .trueLabel).bump .endLabel) with hy | hy
            · exact absurd hy.of_bump.1 (by decide)
            · exact .inr (.inr (hy.of_bump.2.trans hr'.symm))
    cases isOr <;> simp [writesOf_instr (i := .branch _ _) rfl,
      writesOf_instr (i := .goto _) rfl] <;> tauto
  · intro y hy
    obtain rfl := List.mem_singleton.mp hy
    exact .inl hresult

/-- An operation other than `&&` and `||` on two lowered operands, which stays as it is if `inline`
is set. -/
def operation (op : BinOp) (left right : Lowered) (type : Ty) (inline : Bool) : Draw Lowered := do
  let (leftCode, x) ← materialize left.value
  let (rightCode, y) ← materialize right.value
  let code := left.code ++ leftCode ++ right.code ++ rightCode
  if inline then return ⟨code, .binary op x y type⟩ else stored code (.binary op x y type)

theorem operation_apply (op : BinOp) (left right : Lowered) (t : Ty) (inline : Bool) (n : Names) :
    ∃ code x y n', code = left.code ++ (materialize left.value n).1.1 ++ right.code
          ++ (materialize right.value (materialize left.value n).2).1.1
        ∧ x = (materialize left.value n).1.2
        ∧ y = (materialize right.value (materialize left.value n).2).1.2
        ∧ n' = (materialize right.value (materialize left.value n).2).2
        ∧ operation op left right t inline n
          = if inline then (⟨code, .binary op x y t⟩, n')
            else stored code (.binary op x y t) n' := by
  refine ⟨_, _, _, _, rfl, rfl, rfl, rfl, ?_⟩
  cases inline <;> rfl

theorem fresh_operation {left right : Lowered} (hleft : Draws n m left.code)
    (hright : Draws m n' right.code) (hreads : ReadsIn n m given left.value.reads)
    (hreads' : ReadsIn m n' given right.value.reads) (op : BinOp) (t : Ty) (inline : Bool) :
    Draws n (operation op left right t inline n').2 (operation op left right t inline n').1.code
      ∧ ReadsIn n (operation op left right t inline n').2 given
        (operation op left right t inline n').1.value.reads := by
  obtain ⟨code, x, y, n'', rfl, rfl, rfl, rfl, heq⟩ := operation_apply op left right t inline n'
  have hx := (Draws.nil n').materialize left.value
  have hy := (Draws.nil (materialize left.value n').2).materialize right.value
  have hle := hleft.le.trans hright.le
  have hcode : Draws n (materialize right.value (materialize left.value n').2).2
      (left.code ++ (materialize left.value n').1.1 ++ right.code
        ++ (materialize right.value (materialize left.value n').2).1.1) := by
    refine ⟨hle.trans (hx.le.trans hy.le), ?_, ?_, ?_⟩
    · simp only [labelsOf_append, labelsOf_materialize, List.append_nil]
      exact (hleft.labels.append hright.labels hleft.le hright.le).mono (le_refl n)
        (hx.le.trans hy.le)
    · intro x hmem
      simp only [writesOf_append, List.mem_append] at hmem
      rcases hmem with ((hmem | hmem) | hmem) | hmem
      · exact (hleft.writes x hmem).mono (le_refl n) (hright.le.trans (hx.le.trans hy.le))
      · exact (hx.writes x hmem).mono hle hy.le
      · exact (hright.writes x hmem).mono hleft.le (hx.le.trans hy.le)
      · exact (hy.writes x hmem).mono (hle.trans hx.le) (le_refl _)
    · intro x hnew
      simp only [writesOf_append, List.mem_append]
      rcases hnew.split m with hnew | hnew
      · exact .inl (.inl (.inl (hleft.drawn x hnew)))
      · rcases hnew.split n' with hnew | hnew
        · exact .inl (.inr (hright.drawn x hnew))
        · rcases hnew.split (materialize left.value n').2 with hnew | hnew
          · exact .inl (.inl (.inr (hx.drawn x hnew)))
          · exact .inr (hy.drawn x hnew)
  have hoperands :=
    ((hreads.mono (le_refl n) hright.le (List.Subset.refl given)).materialize hle).mono
    (le_refl n) hy.le (List.Subset.refl given) |>.append
    ((hreads'.mono hleft.le hx.le (List.Subset.refl given)).materialize (hle.trans hx.le))
  rw [heq]
  cases inline with
  | true => exact ⟨hcode, hoperands⟩
  | false =>
    rw [if_neg Bool.false_ne_true]
    exact fresh_stored hcode hoperands

theorem fresh_packed (length : Nat) (element : Ty) {fill : String → Draw (List Item)}
    (hfill : ∀ name n, Draws n (fill name n).2 (fill name n).1) :
    FreshLowered given (packed length element fill) := by
  intro n
  have htemp : Draws n (n.bump .temp) ([] ++ [assignVar (NameKind.temp.name (n.count .temp))
      (.array element)
      (.call (Call.newArray (Operand.int (Int32.ofNat length)) (.array element)))]) :=
    (Draws.nil n).append_assign .temp rfl _ _
  rw [packed]
  by_cases hzero : length = 0
  · simp only [hzero, if_true, Draw.bind_apply, draw_apply, Draw.pure_apply] at htemp ⊢
    refine ⟨htemp, fun y hy ↦ .inl ?_⟩
    obtain rfl := List.mem_singleton.mp hy
    exact Names.newVar_next rfl (le_refl _)
  · simp only [hzero, if_false, Draw.bind_apply, draw_apply, Draw.pure_apply]
    have hname := htemp.append_assign .varargsArray rfl (.array element)
      (.single (.var (NameKind.temp.name (n.count .temp)) (.array element)))
    have hstores := hname.append
      (hfill (NameKind.varargsArray.name ((n.bump .temp).count .varargsArray)) _)
    refine ⟨hstores, fun y hy ↦ .inl ?_⟩
    obtain rfl := List.mem_singleton.mp hy
    exact (Names.newVar_next (k := .varargsArray) rfl (le_refl _)).mono (Names.le_bump n .temp)
      (hfill _ _).1

namespace Lowerer

variable (l : Lowerer)

@[simp] theorem site_table : l.site.table = l.table := rfl

@[simp] theorem site_scopes : l.site.scopes = l.scopes := rfl

@[simp] theorem site_method : l.site.method = l.decl.name := rfl

/-- The arguments of a call, packed into an array or one by one. -/
def callArgs (formals : List (Ty × Bool)) (args : List Expr) : Draw (List Item × List Operand) :=
  match l.packedType? formals args with
  | some element => do
    let (code, o) ←
      asOperand (packed args.length element fun name ↦ l.stores name element 0 args)
    pure (code, [o])
  | none => l.args formals 0 args

theorem expr_binary (op : BinOp) (left right : Expr) (span : Span) (use : Use) (n : Names) :
    l.expr (.binary op left right span) use n
      = (match op with
        | .and => shortCircuit (l.expr left .operand n).1
            (l.expr right .operand (l.expr left .operand n).2).1
            (l.typeOf (.binary op left right span)) false
        | .or => shortCircuit (l.expr left .operand n).1
            (l.expr right .operand (l.expr left .operand n).2).1
            (l.typeOf (.binary op left right span)) true
        | op => operation op (l.expr left .operand n).1
            (l.expr right .operand (l.expr left .operand n).2).1
            (l.typeOf (.binary op left right span))
            (!left.isBinary && !right.isBinary && use.isInline))
          (l.expr right .operand (l.expr left .operand n).2).2 := by
  rw [Lowerer.expr]
  cases op <;> rfl

theorem expr_call (receiver : Expr) (method : String) (args : List Expr) (span : Span) (use : Use)
    (n : Names) :
    l.expr (.call receiver method args span) use n
      = l.finishCall (.call receiver method args span) (l.site.namesImport receiver)
          ((asOperand (l.expr receiver .operand) n).1.1
            ++ (l.callArgs (l.formals receiver method) args
              (asOperand (l.expr receiver .operand) n).2).1.1)
          (asOperand (l.expr receiver .operand) n).1.2 method
          (l.callArgs (l.formals receiver method) args
            (asOperand (l.expr receiver .operand) n).2).1.2 use
          (l.callArgs (l.formals receiver method) args
            (asOperand (l.expr receiver .operand) n).2).2 := by
  rw [Lowerer.expr, callArgs]
  dsimp only [Draw.bind_apply]
  cases l.packedType? (l.formals receiver method) args <;> rfl

theorem expr_length (array : Expr) (span : Span) (use : Use) (n : Names) :
    l.expr (.length array span) use n
      = stored (asVar (l.expr array .operand) n).1.1
          (.call (Call.lengthOf (.var (asVar (l.expr array .operand) n).1.2.1
            (asVar (l.expr array .operand) n).1.2.2))) (asVar (l.expr array .operand) n).2 := rfl

theorem argUse_cases (formals : List (Ty × Bool)) (position : Nat) :
    argUse formals position = .operand ∨ ∃ t, argUse formals position = .expected t := by
  rw [argUse]
  split
  · exact .inr ⟨_, rfl⟩
  · exact .inr ⟨_, rfl⟩
  · exact .inl rfl

/-- An element of an array stays as it is on the right of an assignment only. -/
theorem expr_index {array position : Expr} {code₁ code₂ : List Item} {name : String} {t : Ty}
    {index : Operand} {n₁ n₂ : Names}
    (h₁ : asVar (l.expr array .operand) n = ((code₁, name, t), n₁))
    (h₂ : asOperand (l.expr position .operand) n₁ = ((code₂, index), n₂)) (span : Span)
    (use : Use) :
    (∃ t', use = .assign t')
        ∧ l.expr (.index array position span) use n
          = (⟨code₁ ++ code₂, .single (.element name index t.elementOrInt)⟩, n₂)
      ∨ (∀ t', use ≠ .assign t')
        ∧ l.expr (.index array position span) use n
          = (⟨code₁ ++ code₂ ++ [assignVar (NameKind.temp.name (n₂.count .temp)) t.elementOrInt
                (.single (.element name index t.elementOrInt))],
              .single (.var (NameKind.temp.name (n₂.count .temp)) t.elementOrInt)⟩,
            n₂.bump .temp) := by
  rw [Lowerer.expr]
  simp only [Draw.bind_apply, h₁, h₂]
  cases use with
  | assign t' => exact .inl ⟨⟨t', rfl⟩, rfl⟩
  | _ => exact .inr ⟨fun _ h ↦ Use.noConfusion h, rfl⟩

theorem fresh_ident (name : String) (span : Span) :
    FreshLowered (l.site.vars (.ident name span)) (l.ident name) := by
  intro n
  rw [Lowerer.ident, Site.vars]
  by_cases himport : l.table.isImport name
  · rw [if_pos himport]
    exact ⟨Draws.nil n, ReadsIn.nil n n _⟩
  · rw [if_neg himport]
    by_cases hfield : l.scopes.isField name l.decl.name
    · rw [if_pos hfield]
      exact fresh_stored (Draws.nil n) (ReadsIn.nil n n _)
    · rw [if_neg hfield]
      refine ⟨Draws.nil n, fun x hx ↦ .inr ?_⟩
      rw [if_neg (by simp [himport, hfield])]
      exact hx

theorem fresh_stores {es : List Expr}
    (ih : ∀ e ∈ es, ∀ use, FreshLowered (l.site.vars e) (l.expr e use)) (array : String)
    (element : Ty) (position : Nat) (n : Names) :
    Draws n (l.stores array element position es n).2 (l.stores array element position es n).1 := by
  induction es generalizing position n with
  | nil => exact Draws.nil n
  | cons e es ihes =>
    rw [Lowerer.stores]
    simp only [Draw.bind_apply, Draw.pure_apply]
    have hfirst := ((ih e List.mem_cons_self (.expected element)).asOperand n).1
    have hrest := ihes (fun e' he' ↦ ih e' (List.mem_cons_of_mem e he')) (position + 1)
      (asOperand (l.expr e (.expected element)) n).2
    -- an assignment to an element assigns to no variable
    have hstore := hfirst.append_plain (b := [.instr (.assign (.element array
      (Operand.int (Int32.ofNat position)) element) element
      (.single (asOperand (l.expr e (.expected element)) n).1.2))]) rfl rfl
    have hall := hstore.append hrest
    rwa [List.append_assoc] at hall

theorem fresh_args {es : List Expr}
    (ih : ∀ e ∈ es, ∀ use, FreshLowered (l.site.vars e) (l.expr e use))
    (formals : List (Ty × Bool)) (position : Nat) (n : Names) :
    Draws n (l.args formals position es n).2 (l.args formals position es n).1.1
      ∧ ReadsIn n (l.args formals position es n).2 (l.site.varsAll es)
        ((l.args formals position es n).1.2.flatMap Operand.reads) := by
  induction es generalizing position n with
  | nil => exact ⟨Draws.nil n, ReadsIn.nil n n _⟩
  | cons e es ihes =>
    rw [Lowerer.args, Site.varsAll]
    simp only [Draw.bind_apply, Draw.pure_apply]
    obtain ⟨hfirst, hreads⟩ := (ih e List.mem_cons_self (argUse formals position)).asOperand n
    obtain ⟨hrest, hreads'⟩ := ihes (fun e' he' ↦ ih e' (List.mem_cons_of_mem e he'))
      (position + 1) (asOperand (l.expr e (argUse formals position)) n).2
    refine ⟨hfirst.append hrest, ?_⟩
    rw [List.flatMap_cons]
    exact (hreads.mono (le_refl n) hrest.le (List.subset_append_left _ _)).append
      (hreads'.mono hfirst.le (le_refl _) (List.subset_append_right _ _))

theorem fresh_finishCall {code : List Item} (h : Draws n n' code) {caller : Operand}
    {args : List Operand} (hcaller : ReadsIn n n' given caller.reads)
    (hargs : ReadsIn n n' given (args.flatMap Operand.reads)) (e : Expr) (onImport : Bool)
    (method : String) (use : Use) :
    Draws n (l.finishCall e onImport code caller method args use n').2
        (l.finishCall e onImport code caller method args use n').1.code
      ∧ ReadsIn n (l.finishCall e onImport code caller method args use n').2 given
        (l.finishCall e onImport code caller method args use n').1.value.reads := by
  rw [finishCall]
  by_cases huse : use = .statement
  · rw [if_pos huse]
    refine ⟨h, ?_⟩
    cases onImport <;> exact hcaller.append hargs
  · rw [if_neg huse]
    exact fresh_stored h (hcaller.append hargs)

theorem fresh_callArgs {es : List Expr}
    (ih : ∀ e ∈ es, ∀ use, FreshLowered (l.site.vars e) (l.expr e use))
    (formals : List (Ty × Bool)) (n : Names) :
    Draws n (l.callArgs formals es n).2 (l.callArgs formals es n).1.1
      ∧ ReadsIn n (l.callArgs formals es n).2 (l.site.varsAll es)
        ((l.callArgs formals es n).1.2.flatMap Operand.reads) := by
  rw [callArgs]
  cases l.packedType? formals es with
  | none => exact l.fresh_args ih formals 0 n
  | some element =>
    have hpacked : FreshLowered (l.site.varsAll es)
        (packed es.length element fun name ↦ l.stores name element 0 es) :=
      fresh_packed _ _ fun name ↦ l.fresh_stores ih name element 0
    obtain ⟨hdraws, hreads⟩ := hpacked.asOperand n
    refine ⟨hdraws, ?_⟩
    show ReadsIn n _ _ ([_].flatMap Operand.reads)
    rw [List.flatMap_singleton]
    exact hreads

/-- **Lowered expressions only use new names of their own.**  Their labels are new and different,
they assign to new variables only, and their value reads no others than these and the variables of
the expression. -/
theorem expr_fresh (e : Expr) : ∀ use, FreshLowered (l.site.vars e) (l.expr e use) := by
  induction e with
  | int value span => intro _ n; exact ⟨Draws.nil n, ReadsIn.nil n n _⟩
  | bool value span => intro _ n; exact ⟨Draws.nil n, ReadsIn.nil n n _⟩
  | ident name span => intro _; exact l.fresh_ident name span
  | self span => intro _ n; exact ⟨Draws.nil n, ReadsIn.nil n n _⟩
  | paren inner span ih => intro use; exact ih use.inParens
  | arrayLit elements span ih =>
    intro _
    exact fresh_packed _ _ fun name ↦ l.fresh_stores ih name .int32 0
  | not operand span ih =>
    intro _ n
    exact (ih .operand).asOperand n
  | index array position span iha ihp =>
    intro use n
    rw [Site.vars]
    obtain ⟨harray, hname⟩ := (iha .operand).asVar n
    rcases h₁ : asVar (l.expr array .operand) n with ⟨⟨code₁, name, t⟩, n₁⟩
    obtain ⟨hposition, hindex⟩ := (ihp .operand).asOperand n₁
    rcases h₂ : asOperand (l.expr position .operand) n₁ with ⟨⟨code₂, index⟩, n₂⟩
    rw [h₁] at harray hname
    rw [h₂] at hposition hindex
    have hcode := harray.append hposition
    rcases l.expr_index h₁ h₂ span use with ⟨_, heq⟩ | ⟨_, heq⟩
    · rw [heq]
      exact ⟨hcode, (hname.mono (le_refl n) hposition.le
        (List.subset_append_left _ (l.site.vars position))).append
        (hindex.mono harray.le (le_refl _) (List.subset_append_right (l.site.vars array) _))⟩
    · rw [heq]
      refine ⟨hcode.append_assign .temp rfl _ _, fun x hx ↦ .inl ?_⟩
      obtain rfl := List.mem_singleton.mp hx
      exact (Names.newVar_next (k := .temp) rfl (le_refl _)).mono hcode.le (le_refl _)
  | binary op left right span ihl ihr =>
    intro use n
    rw [l.expr_binary, Site.vars]
    obtain ⟨hleft, hreadsl⟩ := ihl .operand n
    obtain ⟨hright, hreadsr⟩ := ihr .operand (l.expr left .operand n).2
    have hl := hreadsl.mono (le_refl n) (le_refl _)
      (List.subset_append_left (l.site.vars left) (l.site.vars right))
    have hr := hreadsr.mono (le_refl _) (le_refl _)
      (List.subset_append_right (l.site.vars left) (l.site.vars right))
    cases op with
    | and => exact fresh_shortCircuit hleft hright _ false
    | or => exact fresh_shortCircuit hleft hright _ true
    | _ => exact fresh_operation hleft hright hl hr _ _ _
  | call receiver method args span ihr iha =>
    intro use n
    rw [l.expr_call, Site.vars]
    obtain ⟨hcaller, hreads⟩ := (ihr .operand).asOperand n
    obtain ⟨hargs, hreads'⟩ := l.fresh_callArgs iha (l.formals receiver method)
      (asOperand (l.expr receiver .operand) n).2
    exact l.fresh_finishCall (hcaller.append hargs)
      (hreads.mono (le_refl n) hargs.le (List.subset_append_left _ _))
      (hreads'.mono hcaller.le (le_refl _) (List.subset_append_right _ _)) _ _ _ _
  | newArray element size span ih =>
    intro _ n
    obtain ⟨hcode, hreads⟩ := (ih .operand).asOperand n
    refine ⟨hcode, ?_⟩
    show ReadsIn n _ _ ([] ++ ([_].flatMap Operand.reads))
    rw [List.nil_append, List.flatMap_singleton]
    exact hreads
  | newObject className span =>
    intro _ n
    refine ⟨?_, fun x hx ↦ .inl ?_⟩
    · exact ((Draws.nil n).append_assign .temp rfl _ _).append_plain rfl rfl
    · obtain rfl := List.mem_singleton.mp hx
      exact Names.newVar_next (k := .temp) rfl (le_refl _)
  | length array span ih =>
    intro use n
    rw [l.expr_length]
    obtain ⟨harray, hname⟩ := (ih .operand).asVar n
    have hcall : ReadsIn n (asVar (l.expr array .operand) n).2 (l.site.vars array)
        (Instr.reads (.call (Call.lengthOf (.var (asVar (l.expr array .operand) n).1.2.1
          (asVar (l.expr array .operand) n).1.2.2)))) := hname
    exact fresh_stored harray hcall

end Lowerer

end Ollir
end Jmm
