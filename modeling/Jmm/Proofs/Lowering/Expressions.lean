import Jmm.Proofs.Lowering.Runs
import Jmm.Proofs.Semantics.Source

/-!
# Lowered expressions compute what the expressions mean

The code of a lowered expression, run from any variables that agree with those of the program on all
names but the generated ones, followed by its value, does what `Site.eval` says: the same value, the
same events in the same order, and the same exception (`Lowerer.computes_expr`).

The value may be an instruction that has effects and still has to run.  Everything that runs between
it and its use would come before these effects, so lowering stores values in temporaries wherever
other code follows; what it leaves as it is are plain operands, which have no effects and read only
variables that later code does not assign to (`Lowerer.expr_fresh`).
-/

set_option autoImplicit false

namespace Jmm

namespace Site

/-- The method of the class that a call goes to. -/
def callee? (s : Site) (receiver : Expr) (method : String) : Option Signature :=
  if s.typeOf receiver = .named s.table.className then s.table.method? method else none

mutual

/-- No call in an expression goes to a method with a vararg parameter. -/
def noVarargCalls (s : Site) : Expr → Bool
  | .int _ _ | .bool _ _ | .ident _ _ | .self _ | .newObject _ _ => true
  | .paren inner _ => s.noVarargCalls inner
  | .arrayLit elements _ => s.noVarargCallsAll elements
  | .not operand _ => s.noVarargCalls operand
  | .index array position _ => s.noVarargCalls array && s.noVarargCalls position
  | .binary _ left right _ => s.noVarargCalls left && s.noVarargCalls right
  | .call receiver method args _ =>
    (s.callee? receiver method).all (fun f ↦ f.params.all fun p ↦ !p.isVararg)
      && s.noVarargCalls receiver && s.noVarargCallsAll args
  | .newArray _ size _ => s.noVarargCalls size
  | .length array _ => s.noVarargCalls array

/-- No call in expressions goes to a method with a vararg parameter. -/
def noVarargCallsAll (s : Site) : List Expr → Bool
  | [] => true
  | e :: es => s.noVarargCalls e && s.noVarargCallsAll es

end

theorem noVarargCalls_of_mem {s : Site} {es : List Expr} (h : s.noVarargCallsAll es = true)
    {e : Expr} (he : e ∈ es) : s.noVarargCalls e = true := by
  induction es with
  | nil => exact absurd he List.not_mem_nil
  | cons first rest ih =>
    rw [noVarargCallsAll, Bool.and_eq_true] at h
    rcases List.mem_cons.mp he with rfl | he
    · exact h.1
    · exact ih h.2 he

theorem vars_subset_varsAll {s : Site} {es : List Expr} {e : Expr} (he : e ∈ es) :
    s.vars e ⊆ s.varsAll es := by
  induction es with
  | nil => exact absurd he List.not_mem_nil
  | cons first rest ih =>
    rw [varsAll]
    rcases List.mem_cons.mp he with rfl | he
    · exact List.subset_append_left _ _
    · exact List.subset_append_of_subset_right _ (ih he)

end Site

namespace Ollir

open Semantics

/-! ## Plain operands -/

/-- Whether reading an operand has no effect; reading an element of an array has. -/
def Operand.isPlain : Operand → Bool
  | element _ _ _ => false
  | _ => true

theorem Operand.eval_of_isPlain {o : Operand} (h : o.isPlain = true) (c : Context) (env : Env) :
    (∃ v, o.eval c env = pure v) ∨ o.eval c env = Eval.undefined := by
  cases o with
  | element name index t => exact absurd h (by simp [isPlain])
  | classRef name => exact .inr rfl
  | _ => exact .inl ⟨_, rfl⟩

/-- The value of an operand depends on the variables it reads only. -/
theorem Operand.eval_congr {o : Operand} {env env' : Env} (h : ∀ x ∈ o.reads, env' x = env x)
    (c : Context) : o.eval c env' = o.eval c env := by
  induction o with
  | element name index t ih =>
    have hindex := ih fun x hx ↦ h x (List.mem_cons_of_mem name hx)
    rw [eval, eval, hindex, h name List.mem_cons_self]
  | var name t => rw [eval, eval, h name List.mem_cons_self]
  | _ => rfl

variable {c : Context} {m : Method} {D D₁ : String → Prop} {pc pc' : Nat} {env env₀ : Env}
  {s : Shared} {x : Eval Val}

theorem Yields.plain {o : Operand} (h : Yields c m D pc pc' (.single o) env s (x s))
    (ho : o.isPlain = true) :
    Delivers c m D pc (fun _ ↦ pc') (fun v env' ↦ o.eval c env' = pure v) env s (x s) := by
  cases hx : x s with
  | ok v s' =>
    rw [hx] at h
    obtain ⟨env', s₁, hsteps, hagree, hv⟩ := h
    rw [Instr.value] at hv
    rcases Operand.eval_of_isPlain ho c env' with ⟨w, hw⟩ | hw
    · rw [hw] at hv
      obtain ⟨rfl, rfl⟩ := Outcome.ok.inj hv
      exact ⟨env', hsteps, hagree, hw⟩
    · rw [hw] at hv
      exact nomatch hv
  | raised e s' =>
    rw [hx] at h
    rcases h with h | ⟨env', s₁, _, _, hv⟩
    · exact h
    · rw [Instr.value] at hv
      rcases Operand.eval_of_isPlain ho c env' with ⟨w, hw⟩ | hw <;>
        · rw [hw] at hv
          exact nomatch hv
  | undefined => trivial

/-- A value that is stored as an operand, if it is none yet. -/
theorem Yields.materialize {value : Instr} (h : Yields c m D₁ pc pc' value env s (x s))
    (hplain : ∀ o, value = .single o → o.isPlain = true) {n : Names}
    (hplaced : Placed m pc' (materialize value n).1.1) (h₁ : ∀ y, D₁ y → D y)
    (h₂ : ∀ y, n.NewVar (Ollir.materialize value n).2 y → D y) :
    Delivers c m D pc (fun _ ↦ pc' + codeSize (Ollir.materialize value n).1.1)
      (fun v env' ↦ (Ollir.materialize value n).1.2.eval c env' = pure v) env s (x s) := by
  rcases materialize_cases value n with ⟨o, rfl, heq⟩ | ⟨_, heq⟩
  · rw [heq]
    exact (h.plain (hplain o rfl)).mono h₁ fun _ _ _ hv ↦ hv
  · rw [heq] at hplaced h₂ ⊢
    have htemp := h₂ _ (Names.newVar_next (k := .temp) rfl (le_refl _))
    exact (h.assign hplaced.1 h₁ htemp).mono (fun _ hy ↦ hy) fun v env' _ hv ↦ congrArg pure hv

theorem Yields.stored {code : List Item} {value : Instr}
    (h : Yields c m D₁ pc (pc + codeSize code) value env s (x s))
    (hplain : ∀ o, value = .single o → o.isPlain = true) {n : Names}
    (hplaced : Placed m pc (stored code value n).1.code) (h₁ : ∀ y, D₁ y → D y)
    (h₂ : ∀ y, n.NewVar (Ollir.stored code value n).2 y → D y) :
    Yields c m D pc (pc + codeSize (Ollir.stored code value n).1.code)
      (Ollir.stored code value n).1.value env s (x s) := by
  rw [stored_apply] at hplaced h₂ ⊢
  rw [placed_append] at hplaced
  rw [codeSize_append, ← Nat.add_assoc, ← bind_pure x]
  exact (h.materialize hplain hplaced.2 h₁ h₂).yields fun v env' _ hv ↦ hv

/-! ## Lowered expressions as parts -/

/-- Wherever its code is placed, and whatever the generated variables hold, a lowered expression
does what a computation says. -/
def Computes (c : Context) (m : Method) (env₀ : Env) (x : Eval Val) (e : Draw Lowered) : Prop :=
  ∀ n pc env s, AgreeOff IsGenerated env₀ env → Placed m pc (e n).1.code →
    Yields c m (n.NewVar (e n).2) pc (pc + codeSize (e n).1.code) (e n).1.value env s (x s)

/-- A lowered expression does not have an element of an array as its value. -/
def PlainValue (e : Draw Lowered) : Prop := ∀ n o, (e n).1.value = .single o → o.isPlain = true

variable {e : Draw Lowered} {given : List String} {n : Names}

theorem le_materialize (value : Instr) (n : Names) : n ≤ (materialize value n).2 :=
  ((Draws.nil n).materialize value).le

theorem le_stored (code : List Item) (value : Instr) (n : Names) :
    n ≤ (stored code value n).2 := by
  rw [stored_apply]
  exact le_materialize value n

theorem Computes.asOperand (h : Computes c m env₀ x e) (hplain : PlainValue e)
    (hfresh : FreshLowered given e) (hagree : AgreeOff IsGenerated env₀ env)
    (hplaced : Placed m pc (asOperand e n).1.1) :
    Delivers c m (n.NewVar (Ollir.asOperand e n).2) pc
      (fun _ ↦ pc + codeSize (Ollir.asOperand e n).1.1)
      (fun v env' ↦ (Ollir.asOperand e n).1.2.eval c env' = pure v) env s (x s) := by
  rw [asOperand_apply] at hplaced ⊢
  rw [placed_append] at hplaced
  rw [codeSize_append, ← Nat.add_assoc]
  exact (h n pc env s hagree hplaced.1).materialize (hplain n) hplaced.2
    (fun y hy ↦ hy.mono (le_refl n) (le_materialize _ _))
    (fun y hy ↦ hy.mono (hfresh n).1.le (le_refl _))

theorem isPlain_asOperand (hplain : PlainValue e) (n : Names) :
    (asOperand e n).1.2.isPlain = true := by
  rw [asOperand_apply]
  rcases materialize_cases (e n).1.value (e n).2 with ⟨o, ho, heq⟩ | ⟨_, heq⟩
  · rw [heq]
    exact hplain n o ho
  · rw [heq]
    rfl

theorem Computes.asVar (h : Computes c m env₀ x e) (hplain : PlainValue e)
    (hfresh : FreshLowered given e) (hagree : AgreeOff IsGenerated env₀ env)
    (hplaced : Placed m pc (asVar e n).1.1) :
    Delivers c m (n.NewVar (Ollir.asVar e n).2) pc (fun _ ↦ pc + codeSize (Ollir.asVar e n).1.1)
      (fun v env' ↦ env' (Ollir.asVar e n).1.2.1 = v) env s (x s) := by
  rcases asVar_cases e n with ⟨name, t, ho, heq⟩ | ⟨_, heq⟩
  · rw [heq] at hplaced ⊢
    refine (h.asOperand hplain hfresh hagree hplaced).mono (fun _ hy ↦ hy) fun v env' _ hv ↦ ?_
    rw [ho, Operand.eval] at hv
    exact (Outcome.ok.inj (congrFun hv s)).1
  · have hdraws := (hfresh.asOperand n).1
    rw [heq] at hplaced ⊢
    rw [placed_append] at hplaced
    have hvalue : Yields c m (n.NewVar (Ollir.asOperand e n).2) pc
        (pc + codeSize (Ollir.asOperand e n).1.1) (.single (Ollir.asOperand e n).1.2) env s
        ((x >>= pure) s) :=
      (h.asOperand hplain hfresh hagree hplaced.1).yields fun v env' _ hv ↦ hv
    rw [bind_pure] at hvalue
    rw [codeSize_append, ← Nat.add_assoc]
    exact hvalue.assign hplaced.2.1 (fun y hy ↦ hy.mono (le_refl n) (Names.le_bump _ _))
      ((Names.newVar_next (k := .temp) rfl (le_refl _)).mono hdraws.le (le_refl _))

/-- What was read stays the same while later code runs. -/
theorem ReadsIn.agree {n' k k' : Names} {xs : List String} (h : ReadsIn n n' given xs)
    (hgiven : ∀ y ∈ given, ¬ IsGenerated y) (hle : n' ≤ k) {env' : Env}
    (hagree : AgreeOff (k.NewVar k') env env') : ∀ y ∈ xs, env' y = env y := by
  intro y hy
  refine hagree y fun hnew ↦ ?_
  rcases h y hy with hold | hmem
  · exact hold.not_later hle hnew
  · exact hgiven y hmem hnew.isGenerated

theorem AgreeOff.newVar {n n' : Names} {env' : Env} (h : AgreeOff IsGenerated env₀ env)
    (h' : AgreeOff (n.NewVar n') env env') : AgreeOff IsGenerated env₀ env' :=
  h.trans (h'.mono fun _ hy ↦ hy.isGenerated)

/-! ## Operators -/

/-- A test followed by one of two branches, each of which delivers the same kind of value. -/
theorem Yields.diamond {α : Type} {value : Instr} {trueLabel endLabel : String}
    {onFalse onTrue : List Item} {Q : α → Env → Prop} {f : Bool → Eval α}
    (h : Yields c m D₁ pc pc' value env s (x s))
    (hplaced : Placed m pc' (diamond value trueLabel endLabel onFalse onTrue))
    (h₁ : ∀ y, D₁ y → D y)
    (hfalse : ∀ pc env' s', AgreeOff D₁ env env' → Placed m pc onFalse →
      Delivers c m D pc (fun _ ↦ pc + codeSize onFalse) Q env' s' (f false s'))
    (htrue : ∀ pc env' s', AgreeOff D₁ env env' → Placed m pc onTrue →
      Delivers c m D pc (fun _ ↦ pc + codeSize onTrue) Q env' s' (f true s')) :
    Delivers c m D pc
      (fun _ ↦ pc' + codeSize (Ollir.diamond value trueLabel endLabel onFalse onTrue)) Q env s
      (((x >>= truth) >>= f) s) := by
  have hparts := placedDiamond_of_placed hplaced
  have hend : pc' + codeSize (Ollir.diamond value trueLabel endLabel onFalse onTrue)
      = pc' + 1 + codeSize onFalse + 1 + codeSize onTrue := by
    rw [codeSize_diamond]
    omega
  rw [hend]
  refine (h.branch hparts.hbranch hparts.hlabel).bind h₁ (fun _ hy ↦ hy) ?_
  intro b env' s' hagree _
  cases b with
  | true => exact htrue _ env' s' hagree hparts.htrue
  | false => exact (hfalse _ env' s' hagree hparts.hfalse).goto hparts.hgoto hparts.hend

theorem le_shortCircuit (left right : Lowered) (t : Ty) (isOr : Bool) (n : Names) :
    n ≤ (shortCircuit left right t isOr n).2 :=
  ((Names.le_bump n .trueLabel).trans (Names.le_bump _ .endLabel)).trans (Names.le_bump _ .temp)

/-- The left operand of `&&` or `||` is tested, and where it does not decide, the result is that of
the right one. -/
theorem yields_shortCircuit {left right : Lowered} {t : Ty} {isOr : Bool} {y : Eval Val}
    {D₂ : String → Prop}
    (hleft : Placed m pc left.code →
      Yields c m D₁ pc (pc + codeSize left.code) left.value env s (x s))
    (hright : ∀ pc env' s', AgreeOff D₁ env env' → Placed m pc right.code →
      Yields c m D₂ pc (pc + codeSize right.code) right.value env' s' (y s'))
    (hplaced : Placed m pc (shortCircuit left right t isOr n).1.code)
    (h₁ : ∀ z, D₁ z → D z) (h₂ : ∀ z, D₂ z → D z)
    (hn : ∀ z, n.NewVar (shortCircuit left right t isOr n).2 z → D z) :
    Yields c m D pc (pc + codeSize (shortCircuit left right t isOr n).1.code)
      (shortCircuit left right t isOr n).1.value env s
      (((x >>= truth) >>= fun b ↦ if b = isOr then pure (.ofBool isOr) else y) s) := by
  obtain ⟨trueLabel, endLabel, result, hnew, heq⟩ := shortCircuit_diamond left right t isOr n
  have hresult : D result := hn result hnew
  rw [heq] at hplaced ⊢
  rw [placed_append] at hplaced
  have hdecided : ∀ pc env' s', AgreeOff D₁ env env' →
      Placed m pc [assignVar result t (.single (Operand.bool isOr))] →
      Delivers c m D pc (fun _ ↦ pc + 1) (fun v env' ↦ env' result = v) env' s'
        ((pure (Val.ofBool isOr) : Eval Val) s') := by
    intro pc env' s' _ hset
    have hvalue : Instr.value c env' (.single (Operand.bool isOr)) = pure (Val.ofBool isOr) := by
      cases isOr <;> rfl
    exact (Yields.of_value (D := D) hvalue).assign hset.1 (fun _ hy ↦ hy) hresult
  have hundecided : ∀ pc env' s', AgreeOff D₁ env env' →
      Placed m pc (right.code ++ [assignVar result t right.value]) →
      Delivers c m D pc (fun _ ↦ pc + codeSize (right.code ++ [assignVar result t right.value]))
        (fun v env' ↦ env' result = v) env' s' (y s') := by
    intro pc env' s' hagree hset
    rw [placed_append] at hset
    rw [codeSize_append, ← Nat.add_assoc]
    exact (hright pc env' s' hagree hset.1).assign hset.2.1 h₂ hresult
  rw [← bind_pure (_ >>= _)]
  refine Delivers.yields (Q := fun v env' ↦ env' result = v) ?_ fun v env' _ hv ↦ congrArg pure hv
  rw [codeSize_append, ← Nat.add_assoc]
  cases isOr with
  | false => exact (hleft hplaced.1).diamond hplaced.2 h₁ hdecided hundecided
  | true => exact (hleft hplaced.1).diamond hplaced.2 h₁ hundecided hdecided

theorem reads_materialize {value : Instr} {n₀ n₁ : Names} (h : ReadsIn n₀ n₁ given value.reads) :
    ∀ z ∈ (materialize value n).1.2.reads,
      n₀.NewVar n₁ z ∨ z ∈ given ∨ n.NewVar (materialize value n).2 z := by
  intro z hz
  rcases materialize_cases value n with ⟨o, rfl, heq⟩ | ⟨_, heq⟩
  · rw [heq] at hz
    exact (h z hz).imp_right .inl
  · rw [heq] at hz ⊢
    obtain rfl := List.mem_singleton.mp hz
    exact .inr (.inr (Names.newVar_next (k := .temp) rfl (le_refl _)))

/-- An operation other than `&&` and `||`.  The left operand is stored before the code of the right
one runs, with a name that is drawn after those of the right one. -/
theorem yields_operation {left right : Lowered} {n₀ n₁ : Names} {y : Eval Val} {op : BinOp} {t : Ty}
    {inline : Bool} (hle₀ : n₀ ≤ n₁) (hle₁ : n₁ ≤ n)
    (hleft : Placed m pc left.code →
      Yields c m (n₀.NewVar n₁) pc (pc + codeSize left.code) left.value env s (x s))
    (hright : ∀ pc env' s', AgreeOff IsGenerated env env' → Placed m pc right.code →
      Yields c m (n₁.NewVar n) pc (pc + codeSize right.code) right.value env' s' (y s'))
    (hplain : ∀ o, left.value = .single o → o.isPlain = true)
    (hplain' : ∀ o, right.value = .single o → o.isPlain = true)
    (hreads : ReadsIn n₀ n₁ given left.value.reads) (hgiven : ∀ z ∈ given, ¬ IsGenerated z)
    (hplaced : Placed m pc (operation op left right t inline n).1.code) :
    Yields c m (n₀.NewVar (operation op left right t inline n).2) pc
      (pc + codeSize (operation op left right t inline n).1.code)
      (operation op left right t inline n).1.value env s
      ((do let a ← x; let b ← y; operate op a b : Eval Val) s) := by
  obtain ⟨code, X, Y, n', hcode, hX, hY, hn', heq⟩ := operation_apply op left right t inline n
  have hleX : n ≤ (materialize left.value n).2 := le_materialize _ _
  have hleY : (materialize left.value n).2 ≤ n' := hn' ▸ le_materialize _ _
  have hplacedCode : Placed m pc code := by
    rw [heq] at hplaced
    cases inline with
    | true => exact hplaced
    | false =>
      rw [if_neg Bool.false_ne_true, stored_apply, placed_append] at hplaced
      exact hplaced.1
  -- both operands at hand
  have hboth : Delivers c m (n₀.NewVar n') pc (fun _ ↦ pc + codeSize code)
      (fun p env' ↦ X.eval c env' = pure p.1 ∧ Y.eval c env' = pure p.2) env s
      ((x >>= fun a ↦ y >>= fun b ↦ pure (a, b)) s) := by
    simp only [hcode, placed_append, codeSize_append, ← Nat.add_assoc] at hplacedCode ⊢
    obtain ⟨⟨⟨hplacedLeft, hplacedX⟩, hplacedRight⟩, hplacedY⟩ := hplacedCode
    let DX : String → Prop := fun z ↦ n₀.NewVar n₁ z ∨ n.NewVar (materialize left.value n).2 z
    let DY : String → Prop := fun z ↦ n₁.NewVar n z ∨ (materialize left.value n).2.NewVar n' z
    have hDX : ∀ z, DX z → n₀.NewVar n' z := by
      rintro z (hz | hz)
      · exact hz.mono (le_refl _) (hle₁.trans (hleX.trans hleY))
      · exact hz.mono (hle₀.trans hle₁) hleY
    have hDY : ∀ z, DY z → n₀.NewVar n' z := by
      rintro z (hz | hz)
      · exact hz.mono hle₀ (hleX.trans hleY)
      · exact hz.mono (hle₀.trans (hle₁.trans hleX)) (le_refl _)
    have hstable : ∀ z ∈ X.reads, ¬ DY z := by
      intro z hz
      rw [hX] at hz
      rintro (hnew | hnew)
      · rcases reads_materialize hreads z hz with hz | hz | hz
        · exact hz.not_later (le_refl _) hnew
        · exact hgiven z hz hnew.isGenerated
        · exact hnew.not_later (le_refl _) hz
      · rcases reads_materialize hreads z hz with hz | hz | hz
        · exact hz.not_later (hle₁.trans hleX) hnew
        · exact hgiven z hz hnew.isGenerated
        · exact hz.not_later (le_refl _) hnew
    have hdeliverX := (hleft hplacedLeft).materialize (D := DX) hplain hplacedX (fun _ ↦ .inl)
      (fun _ ↦ .inr)
    refine hdeliverX.bind hDX hDY fun a env' s' hagree ha ↦ ?_
    have hgenerated : AgreeOff IsGenerated env env' :=
      hagree.mono fun z hz ↦ (hDX z hz).isGenerated
    have hdeliverY := (hright _ env' s' hgenerated hplacedRight).materialize (D := DY) hplain'
      hplacedY (fun _ ↦ .inl) (fun z hz ↦ .inr (hn' ▸ hz))
    refine hdeliverY.map (fun b ↦ (a, b)) fun b env'' hagree' hb ↦ ⟨?_, hY ▸ hb⟩
    rw [Operand.eval_congr (fun z hz ↦ hagree' z (hstable z hz)), hX]
    exact ha
  have hvalue : Yields c m (n₀.NewVar n') pc (pc + codeSize code) (.binary op X Y t) env s
      (((x >>= fun a ↦ y >>= fun b ↦ pure (a, b)) >>= fun p ↦ operate op p.1 p.2) s) :=
    hboth.yields fun p env' _ hp ↦ by simp only [Instr.value, hp.1, hp.2, pure_bind]
  simp only [bind_assoc, pure_bind] at hvalue
  rw [heq] at hplaced ⊢
  cases inline with
  | true => exact hvalue
  | false =>
    rw [if_neg Bool.false_ne_true] at hplaced ⊢
    exact hvalue.stored (fun _ h ↦ Instr.noConfusion h) hplaced
      (fun z hz ↦ hz.mono (le_refl _) (le_stored _ _ _))
      (fun z hz ↦ hz.mono (hle₀.trans (hle₁.trans (hleX.trans hleY))) (le_refl _))

/-! ## Arrays and arguments -/

@[simp] theorem Call.eval_newArray (o : Operand) (t : Ty) (c : Context) (env : Env) :
    (Call.newArray o t).eval c env = o.eval c env >>= Semantics.newArray := rfl

/-- A new array, filled by code that does what `spec` says with the array. -/
theorem computes_packed {length : Nat} {element : Ty} {fill : String → Draw (List Item)}
    {spec : Val → Eval Unit} (hzero : length = 0 → ∀ v, spec v = pure ())
    (hle : ∀ name n, n ≤ (fill name n).2)
    (hfill : ∀ name n pc env s, AgreeOff IsGenerated env₀ env → (∀ k, ¬ n.NewVar k name) →
      Placed m pc (fill name n).1 →
      Delivers c m (n.NewVar (fill name n).2) pc (fun _ ↦ pc + codeSize (fill name n).1)
        (fun _ _ ↦ True) env s (spec (env name) s)) :
    Computes c m env₀ (do
      let array ← Semantics.newArray (.int (Int32.ofNat length))
      spec array
      return array) (packed length element fill) := by
  intro n pc env s hagree hplaced
  have hnew : n.NewVar (n.bump .temp) (NameKind.temp.name (n.count .temp)) :=
    Names.newVar_next (k := .temp) rfl (le_refl _)
  have hvalue : Instr.value c env (.call (Call.newArray (Operand.int (Int32.ofNat length))
      (.array element))) = Semantics.newArray (.int (Int32.ofNat length)) := rfl
  by_cases hlength : length = 0
  · simp only [packed, hlength, if_true, Draw.bind_apply, draw_apply, Draw.pure_apply] at hplaced ⊢
    simp only [hzero hlength, pure_bind, bind_pure]
    rw [hlength] at hvalue
    have halloc := (Yields.of_value (D := n.NewVar (n.bump .temp)) (s := s) hvalue).assign
      hplaced.1 (fun _ hy ↦ hy) hnew
    rw [← bind_pure (Semantics.newArray _)]
    exact halloc.yields fun v env' _ hv ↦ congrArg pure hv
  · simp only [packed, hlength, if_false, Draw.bind_apply, draw_apply, Draw.pure_apply,
      List.cons_append, List.nil_append, placed_assignVar, codeSize_assignVar] at hplaced ⊢
    obtain ⟨hi, hi', hplacedFill⟩ := hplaced
    generalize hname : NameKind.varargsArray.name ((n.bump .temp).count .varargsArray) = name
      at hi' hplacedFill ⊢
    have hle₁ := Names.le_bump n .temp
    have hle₂ := Names.le_bump (n.bump .temp) .varargsArray
    have hle₃ := hle name ((n.bump .temp).bump .varargsArray)
    have hnewName : (n.bump .temp).NewVar ((n.bump .temp).bump .varargsArray) name := by
      rw [← hname]
      exact Names.newVar_next (k := .varargsArray) rfl (le_refl _)
    have hold : ∀ k, ¬ ((n.bump .temp).bump .varargsArray).NewVar k name :=
      fun k ↦ hnewName.not_later (le_refl _)
    have halloc := (Yields.of_value (D := n.NewVar (n.bump .temp)) (s := s) hvalue).assign hi
      (fun _ hy ↦ hy) hnew
    rw [← bind_pure (Semantics.newArray _ >>= _), ← Nat.add_assoc, ← Nat.add_assoc,
      Nat.add_right_comm pc, Nat.add_right_comm (pc + 1)]
    refine Delivers.yields (Q := fun v env' ↦ env' name = v) ?_ fun v env' _ hv ↦ congrArg pure hv
    refine halloc.bind (fun y hy ↦ hy.mono (le_refl n) (hle₂.trans hle₃))
      (fun y (hy : (n.bump .temp).NewVar _ y) ↦ hy.mono hle₁ (le_refl _))
      fun v env₁ s₁ hagree₁ hv ↦ ?_
    have hcopy : Delivers c m ((n.bump .temp).NewVar ((n.bump .temp).bump .varargsArray)) (pc + 1)
        (fun _ ↦ pc + 1 + 1) (fun w env' ↦ env' name = w) env₁ s₁ ((pure v : Eval Val) s₁) :=
      (Yields.of_value (congrArg pure hv)).assign hi' (fun _ hy ↦ hy) hnewName
    rw [← pure_bind v fun array ↦ (do spec array; return array : Eval Val)]
    refine hcopy.bind (fun y hy ↦ hy.mono (le_refl _) hle₃)
      (fun y (hy : Names.NewVar _ _ y) ↦ hy.mono hle₂ (le_refl _)) fun w env₂ s₂ hagree₂ hw ↦ ?_
    have hrest := hfill name _ (pc + 1 + 1) env₂ s₂ ((hagree.newVar hagree₁).newVar hagree₂) hold
      hplacedFill
    rw [hw] at hrest
    exact hrest.map (fun _ ↦ w) fun _ env₃ hagree₃ _ ↦ (hagree₃ name (hold _)).trans hw

theorem Operand.target_congr {o : Operand} {env env' : Env} (h : ∀ x ∈ o.reads, env' x = env x)
    (c : Context) : o.target c env' = o.target c env := by
  cases o with
  | classRef name => rfl
  | _ => exact congrArg (· >>= fun v ↦ pure (Target.object v)) (eval_congr h c)

theorem Operand.target_of_eval {o : Operand} {v : Val} (h : o.eval c env = pure v) :
    o.target c env = pure (.object v) := by
  cases o with
  | classRef name => exact absurd h (Eval.undefined_ne_pure v)
  | _ => exact congrArg (· >>= fun v ↦ pure (Target.object v)) h

/-- A call by name on something known, with known arguments. -/
theorem Call.value_of_known {call : Call} {method : String} {t : Target} {vs : List Val}
    (hmethod : call.method = some method)
    (hkind : call.kind = .virtual ∨ call.kind = .static ∧ ∃ name, call.caller = .classRef name)
    (ht : call.caller.target c env = pure t) (hvs : Operand.evals c env call.args = pure vs) :
    (Instr.call call).value c env = invoke c.world t method vs := by
  have hinvoked : call.invoked c env (call.caller.target c env) = invoke c.world t method vs := by
    simp only [Call.invoked, hmethod, ht, hvs, pure_bind]
  rw [Instr.value, Call.eval]
  rcases hkind with hkind | ⟨hkind, name, hname⟩
  · simp only [hkind]
    exact hinvoked
  · simp only [hname, Operand.target] at hinvoked
    simp only [hkind, hname]
    exact hinvoked

theorem isPlain_stored {code : List Item} {value : Instr}
    (hplain : ∀ o, value = .single o → o.isPlain = true) {o : Operand}
    (h : (stored code value n).1.value = .single o) : o.isPlain = true := by
  rw [stored_apply] at h
  obtain rfl := Instr.single.inj h
  rcases materialize_cases value n with ⟨o', ho', heq⟩ | ⟨_, heq⟩
  · rw [heq]
    exact hplain o' ho'
  · rw [heq]
    rfl

theorem isPlain_operation {op : BinOp} {left right : Lowered} {t : Ty} {inline : Bool} {o : Operand}
    (h : (operation op left right t inline n).1.value = .single o) : o.isPlain = true := by
  obtain ⟨code, X, Y, n', _, _, _, _, heq⟩ := operation_apply op left right t inline n
  rw [heq] at h
  cases inline with
  | true => exact Instr.noConfusion h
  | false => exact isPlain_stored (fun _ h' ↦ Instr.noConfusion h') h

namespace Lowerer

variable (l : Lowerer)

theorem plainValue_ident (name : String) : PlainValue (l.ident name) := by
  intro n o ho
  rw [Lowerer.ident] at ho
  split at ho
  · obtain rfl := Instr.single.inj ho
    rfl
  · dsimp only at ho
    split at ho
    · exact isPlain_stored (fun _ h ↦ Instr.noConfusion h) ho
    · obtain rfl := Instr.single.inj ho
      rfl

/-- Only on the right of an assignment an expression has an element of an array as its value. -/
theorem plainValue_expr (e : Expr) {use : Use} (huse : ∀ t, use ≠ .assign t) :
    PlainValue (l.expr e use) := by
  induction e generalizing use with
  | ident name span => exact l.plainValue_ident name
  | paren inner span ih =>
    refine ih fun t ↦ ?_
    cases use <;> simp [Use.inParens]
  | int | bool | self =>
    intro n o ho
    obtain rfl := Instr.single.inj ho
    rfl
  | not | newArray => exact fun n o ho ↦ Instr.noConfusion ho
  | newObject =>
    intro n o ho
    obtain rfl := Instr.single.inj ho
    rfl
  | arrayLit elements span ih =>
    intro n o ho
    rw [Lowerer.expr, packed, Draw.bind_apply] at ho
    split at ho <;>
      · obtain rfl := Instr.single.inj ho
        rfl
  | index array position span =>
    intro n o ho
    rcases l.expr_index (n := n) rfl rfl span use with ⟨⟨t, ht⟩, _⟩ | ⟨_, heq⟩
    · exact absurd ht (huse t)
    · rw [heq] at ho
      obtain rfl := Instr.single.inj ho
      rfl
  | binary op left right span =>
    intro n o ho
    rw [l.expr_binary] at ho
    cases op with
    | and | or =>
      obtain rfl := Instr.single.inj ho
      rfl
    | _ => exact isPlain_operation ho
  | call receiver method args span =>
    intro n o ho
    rw [l.expr_call, finishCall] at ho
    dsimp only at ho
    split at ho
    · exact Instr.noConfusion ho
    · exact isPlain_stored (fun _ h ↦ Instr.noConfusion h) ho
  | length array span =>
    intro n o ho
    rw [l.expr_length] at ho
    exact isPlain_stored (fun _ h ↦ Instr.noConfusion h) ho

theorem computes_ident {name : String} {span : Span}
    (hvars : ∀ y ∈ l.site.vars (.ident name span), ¬ IsGenerated y) :
    Computes c m env₀ (l.site.readName c env₀ name) (l.ident name) := by
  intro n pc env s hagree hplaced
  rw [Lowerer.ident] at hplaced ⊢
  simp only [Site.vars, site_table, site_scopes, site_method] at hvars
  by_cases himport : l.table.isImport name = true
  · have hspec : l.site.readName c env₀ name = Eval.undefined := by
      rw [Site.readName, site_table, if_pos himport]
    rw [hspec]
    trivial
  · simp only [himport, Bool.false_eq_true, if_false, Bool.false_or] at hvars hplaced ⊢
    cases hlookup : l.scopes.lookup name l.decl.name with
    | none =>
      have hspec : l.site.readName c env₀ name = Eval.undefined := by
        rw [Site.readName, site_table, if_neg himport, site_scopes, site_method, hlookup]
      rw [hspec]
      trivial
    | some entry =>
      have hspec : l.site.readName c env₀ name
          = if entry.kind = .field then getField c.self name else pure (env₀ name) := by
        rw [Site.readName, site_table, if_neg himport, site_scopes, site_method, hlookup]
      have hfield : l.scopes.isField name l.decl.name = decide (entry.kind = .field) := by
        rw [Scopes.isField, hlookup]
        rfl
      simp only [hfield, decide_eq_true_eq] at hvars hplaced ⊢
      by_cases hkind : entry.kind = .field
      · rw [if_pos hkind] at hspec hplaced ⊢
        have hvalue : Yields c m (n.NewVar n) pc (pc + codeSize []) (.getField l.receiver name
            (Ty.ofBinding (l.site.identType name) (l.scopes.isVararg name l.decl.name))) env s
            (getField c.self name s) := Yields.of_value rfl
        rw [hspec]
        exact hvalue.stored (fun _ h ↦ Instr.noConfusion h) hplaced
          (fun y hy ↦ hy.mono (le_refl n) (le_stored _ _ _)) (fun _ hy ↦ hy)
      · rw [if_neg hkind] at hvars hspec ⊢
        rw [hspec]
        exact Yields.of_value (congrArg pure (hagree name (hvars name List.mem_cons_self)))

theorem delivers_stores {es : List Expr}
    (ih : ∀ e ∈ es, ∀ use, Computes c m env₀ (l.site.eval c env₀ e) (l.expr e use)) {array : String}
    (element : Ty) (position : Nat) (hagree : AgreeOff IsGenerated env₀ env)
    (hold : ∀ k, ¬ n.NewVar k array)
    (hplaced : Placed m pc (l.stores array element position es n).1) :
    Delivers c m (n.NewVar (l.stores array element position es n).2) pc
      (fun _ ↦ pc + codeSize (l.stores array element position es n).1) (fun _ _ ↦ True) env s
      (l.site.fill c env₀ (env array) position es s) := by
  induction es generalizing position n pc env s with
  | nil => exact Delivers.of_pure rfl trivial
  | cons e es ihes =>
    rw [Lowerer.stores] at hplaced ⊢
    rw [Site.fill]
    simp only [Draw.bind_apply, Draw.pure_apply, placed_append, placed_instr, codeSize_append,
      codeSize_instr] at hplaced ⊢
    obtain ⟨hplacedFirst, hi, hplacedRest⟩ := hplaced
    have hend : ∀ a b, pc + (a + (b + 1)) = pc + a + 1 + b := fun a b ↦ by omega
    rw [hend]
    have hfirst := (ih e List.mem_cons_self (.expected element)).asOperand (s := s)
      (l.plainValue_expr e fun t h ↦ Use.noConfusion h) (l.expr_fresh e _) hagree hplacedFirst
    have hle := ((l.expr_fresh e (.expected element)).asOperand n).1.le
    generalize asOperand (l.expr e (.expected element)) n = first at *
    obtain ⟨⟨code, o⟩, n₁⟩ := first
    have hleRest := (l.fresh_stores (fun e' (_ : e' ∈ es) ↦ l.expr_fresh e') array element
      (position + 1) n₁).le
    refine hfirst.bind (fun y hy ↦ hy.mono (le_refl n) hleRest)
      (fun y (hy : n₁.NewVar _ y) ↦ hy.mono hle (le_refl _)) fun v env₁ s₁ hagree₁ hv ↦ ?_
    have harray : env₁ array = env array := hagree₁ array (hold _)
    have hstore : Delivers c m (n₁.NewVar n₁) (pc + codeSize code)
        (fun _ ↦ pc + codeSize code + 1) (fun _ env' ↦ env' = env₁) env₁ s₁
        (arrayStore (env array) (.int (Int32.ofNat position)) v s₁) := by
      refine Delivers.instr hi (fun _ ↦ env₁) ?_ (fun _ ↦ AgreeOff.refl _ env₁) (fun _ ↦ rfl)
      simp only [Instr.exec, Operand.int, Operand.eval, Instr.value, hv, harray, pure_bind]
    refine hstore.bind (fun y hy ↦ hy.mono (le_refl _) hleRest) (fun _ hy ↦ hy) ?_
    rintro _ env₂ s₂ - rfl
    have hrest := ihes (s := s₂) (fun e' he' ↦ ih e' (List.mem_cons_of_mem e he')) (position + 1)
      (hagree.newVar hagree₁) (fun k hk ↦ hold k (hk.mono hle (le_refl k))) hplacedRest
    rwa [harray] at hrest

theorem delivers_args {es : List Expr}
    (ih : ∀ e ∈ es, ∀ use, Computes c m env₀ (l.site.eval c env₀ e) (l.expr e use))
    (hvars : ∀ y ∈ l.site.varsAll es, ¬ IsGenerated y) (formals : List (Ty × Bool)) (position : Nat)
    (hagree : AgreeOff IsGenerated env₀ env)
    (hplaced : Placed m pc (l.args formals position es n).1.1) :
    Delivers c m (n.NewVar (l.args formals position es n).2) pc
      (fun _ ↦ pc + codeSize (l.args formals position es n).1.1)
      (fun vs env' ↦ Operand.evals c env' (l.args formals position es n).1.2 = pure vs) env s
      (l.site.evals c env₀ es s) := by
  induction es generalizing position n pc env s with
  | nil => exact Delivers.of_pure rfl rfl
  | cons e es ihes =>
    rw [Site.varsAll] at hvars
    rw [Lowerer.args] at hplaced ⊢
    rw [Site.evals]
    simp only [Draw.bind_apply, Draw.pure_apply, placed_append, codeSize_append] at hplaced ⊢
    obtain ⟨hplacedFirst, hplacedRest⟩ := hplaced
    have hfresh := (l.expr_fresh e (argUse formals position)).asOperand n
    have huse : ∀ t, argUse formals position ≠ .assign t := by
      rcases argUse_cases formals position with huse | ⟨t, huse⟩ <;> rw [huse] <;>
        exact fun _ h ↦ Use.noConfusion h
    have hfirst := (ih e List.mem_cons_self (argUse formals position)).asOperand (s := s)
      (l.plainValue_expr e huse) (l.expr_fresh e _) hagree hplacedFirst
    generalize asOperand (l.expr e (argUse formals position)) n = first at *
    obtain ⟨⟨code, o⟩, n₁⟩ := first
    have hleRest := (l.fresh_args (fun e' (_ : e' ∈ es) ↦ l.expr_fresh e') formals
      (position + 1) n₁).1.le
    refine hfirst.bind (fun y hy ↦ hy.mono (le_refl n) hleRest)
      (fun y (hy : n₁.NewVar _ y) ↦ hy.mono hfresh.1.le (le_refl _)) fun v env₁ s₁ hagree₁ hv ↦ ?_
    have hrest := ihes (s := s₁) (fun e' he' ↦ ih e' (List.mem_cons_of_mem e he'))
      (fun y hy ↦ hvars y (List.mem_append_right _ hy)) (position + 1) (hagree.newVar hagree₁)
      hplacedRest
    rw [← Nat.add_assoc]
    refine hrest.map (fun vs ↦ v :: vs) fun vs env₂ hagree₂ hvs ↦ ?_
    have hfirst' : o.eval c env₂ = pure v := by
      rw [Operand.eval_congr (hfresh.2.agree (fun y hy ↦ hvars y (List.mem_append_left _ hy))
        (le_refl _) hagree₂)]
      exact hv
    rw [Operand.evals, hfirst', hvs]
    rfl

/-! ## Calls -/

theorem ident_import {name : String} (h : l.table.isImport name = true) :
    l.ident name = pure (.ofOperand (.classRef name)) := by
  rw [Lowerer.ident, if_pos h]

/-- The receiver of a call, where it is a class, is the operand that names it. -/
theorem caller_of_namesImport {receiver : Expr} (h : l.site.namesImport receiver = true)
    (n : Names) : ∃ name, (asOperand (l.expr receiver .operand) n).1.2 = .classRef name := by
  cases receiver with
  | ident name span =>
    refine ⟨name, ?_⟩
    rw [Lowerer.expr, l.ident_import h]
    rfl
  | _ => exact absurd h Bool.false_ne_true

theorem delivers_target {receiver : Expr}
    (ih : ∀ use, Computes c m env₀ (l.site.eval c env₀ receiver) (l.expr receiver use))
    (hagree : AgreeOff IsGenerated env₀ env)
    (hplaced : Placed m pc (asOperand (l.expr receiver .operand) n).1.1) :
    Delivers c m (n.NewVar (asOperand (l.expr receiver .operand) n).2) pc
      (fun _ ↦ pc + codeSize (asOperand (l.expr receiver .operand) n).1.1)
      (fun t env' ↦ (asOperand (l.expr receiver .operand) n).1.2.target c env' = pure t) env s
      ((match l.site.import? receiver with
        | some name => pure (Target.static (c.path name))
        | none => do pure (Target.object (← l.site.eval c env₀ receiver)) : Eval Target) s) := by
  cases himport : l.site.import? receiver with
  | none =>
    exact ((ih .operand).asOperand (l.plainValue_expr receiver fun t h ↦ Use.noConfusion h)
      (l.expr_fresh receiver _) hagree hplaced).map Target.object
      fun v env' _ hv ↦ Operand.target_of_eval hv
  | some name =>
    cases receiver with
    | ident name' span =>
      rw [Site.import?] at himport
      split at himport
      · obtain rfl := Option.some.inj himport
        rename_i h
        rw [Lowerer.expr, l.ident_import h]
        exact Delivers.of_pure rfl rfl
      · cases himport
    | _ => cases himport

theorem yields_finishCall {y : Eval (Target × List Val)} {code : List Item}
    {caller : Operand} {args : List Operand} {onImport : Bool} {n₀ : Names} (hle : n₀ ≤ n)
    (h : Delivers c m (n₀.NewVar n) pc (fun _ ↦ pc + codeSize code)
      (fun p env' ↦ caller.target c env' = pure p.1 ∧ Operand.evals c env' args = pure p.2) env s
      (y s))
    (himport : onImport = true → ∃ name, caller = .classRef name) (e : Expr) (method : String)
    (use : Use)
    (hplaced : Placed m pc (l.finishCall e onImport code caller method args use n).1.code) :
    Yields c m (n₀.NewVar (l.finishCall e onImport code caller method args use n).2) pc
      (pc + codeSize (l.finishCall e onImport code caller method args use n).1.code)
      (l.finishCall e onImport code caller method args use n).1.value env s
      ((y >>= fun p ↦ invoke c.world p.1 method p.2) s) := by
  rw [finishCall] at hplaced ⊢
  dsimp only at hplaced ⊢
  by_cases huse : use = .statement
  · simp only [huse, if_true, Draw.pure_apply] at hplaced ⊢
    refine h.yields fun p env' _ hp ↦ ?_
    cases onImport with
    | false => exact Call.value_of_known rfl (.inl rfl) hp.1 hp.2
    | true => exact Call.value_of_known rfl (.inr ⟨rfl, himport rfl⟩) hp.1 hp.2
  · rw [if_neg huse] at hplaced ⊢
    have hvalue : Yields c m (n₀.NewVar n) pc (pc + codeSize code) (.call
        { kind := .virtual, caller, method := some method, args, returns := l.callType e use })
        env s
        ((y >>= fun p ↦ invoke c.world p.1 method p.2) s) :=
      h.yields fun p env' _ hp ↦ Call.value_of_known rfl (.inl rfl) hp.1 hp.2
    exact hvalue.stored (fun _ h' ↦ Instr.noConfusion h') hplaced
      (fun z hz ↦ hz.mono (le_refl _) (le_stored _ _ _)) (fun z hz ↦ hz.mono hle (le_refl _))

theorem packedType?_eq_none {receiver : Expr} {method : String}
    (h : (l.site.callee? receiver method).all (fun f ↦ f.params.all fun p ↦ !p.isVararg) = true)
    (args : List Expr) : l.packedType? (l.formals receiver method) args = none := by
  rw [Site.callee?, site_table] at h
  rw [formals]
  split
  · rename_i htype
    rw [if_pos htype] at h
    cases hmethod : l.table.method? method with
    | none => rfl
    | some f =>
      rw [hmethod] at h
      -- no parameter is a vararg
      have hall : ∀ p ∈ f.params, p.isVararg = false := by simpa using h
      rcases hparams : f.params with _ | ⟨p, _ | ⟨q, ps⟩⟩
      · simp [packedType?, hparams]
      · simp [packedType?, hparams, hall p (by simp [hparams])]
      · simp [packedType?, hparams]
  · rfl

theorem computes_call {receiver : Expr} {method : String} {args : List Expr} {span : Span}
    (ihr : ∀ use, Computes c m env₀ (l.site.eval c env₀ receiver) (l.expr receiver use))
    (iha : ∀ e ∈ args, ∀ use, Computes c m env₀ (l.site.eval c env₀ e) (l.expr e use))
    (hvars : ∀ y ∈ l.site.vars (.call receiver method args span), ¬ IsGenerated y)
    (hcallee : (l.site.callee? receiver method).all
      (fun f ↦ f.params.all fun p ↦ !p.isVararg) = true) (use : Use) :
    Computes c m env₀ (l.site.eval c env₀ (.call receiver method args span))
      (l.expr (.call receiver method args span) use) := by
  intro n pc env s hagree hplaced
  rw [Site.vars] at hvars
  have hargs : l.callArgs (l.formals receiver method) args
      = l.args (l.formals receiver method) 0 args := by
    rw [callArgs, l.packedType?_eq_none hcallee]
  rw [l.expr_call, hargs] at hplaced ⊢
  have hfresh := (l.expr_fresh receiver .operand).asOperand n
  have himport : l.site.namesImport receiver = true →
      ∃ name, (asOperand (l.expr receiver .operand) n).1.2 = .classRef name :=
    fun h ↦ l.caller_of_namesImport h n
  have hplacedCode : Placed m pc ((asOperand (l.expr receiver .operand) n).1.1
      ++ (l.args (l.formals receiver method) 0 args
        (asOperand (l.expr receiver .operand) n).2).1.1) := by
    rw [finishCall] at hplaced
    dsimp only at hplaced
    split at hplaced
    · exact hplaced
    · rw [stored_apply, placed_append] at hplaced
      exact hplaced.1
  rw [placed_append] at hplacedCode
  have htarget := l.delivers_target (s := s) ihr hagree hplacedCode.1
  generalize asOperand (l.expr receiver .operand) n = first at *
  obtain ⟨⟨code, caller⟩, n₁⟩ := first
  have hle := (l.fresh_args (fun e' (_ : e' ∈ args) ↦ l.expr_fresh e') (l.formals receiver method)
    0 n₁).1.le
  -- what the method is called on, and with what
  have hknown : Delivers c m (n.NewVar (l.args (l.formals receiver method) 0 args n₁).2) pc
      (fun _ ↦ pc + codeSize (code ++ (l.args (l.formals receiver method) 0 args n₁).1.1))
      (fun p env' ↦ caller.target c env' = pure p.1
        ∧ Operand.evals c env' (l.args (l.formals receiver method) 0 args n₁).1.2 = pure p.2) env s
      (((match l.site.import? receiver with
          | some name => pure (Target.static (c.path name))
          | none => do pure (Target.object (← l.site.eval c env₀ receiver)) : Eval Target)
        >>= fun t ↦ l.site.evals c env₀ args >>= fun vs ↦ pure (t, vs)) s) := by
    rw [codeSize_append, ← Nat.add_assoc]
    refine htarget.bind (fun y hy ↦ hy.mono (le_refl n) hle)
      (fun y (hy : n₁.NewVar _ y) ↦ hy.mono hfresh.1.le (le_refl _)) fun t env₁ s₁ hagree₁ ht ↦ ?_
    refine (l.delivers_args iha (fun y hy ↦ hvars y (List.mem_append_right _ hy)) _ 0
      (hagree.newVar hagree₁) hplacedCode.2).map (fun vs ↦ (t, vs))
      fun vs env₂ hagree₂ hvs ↦ ⟨?_, hvs⟩
    rw [Operand.target_congr (hfresh.2.agree (fun y hy ↦ hvars y (List.mem_append_left _ hy))
      (le_refl _) hagree₂)]
    exact ht
  have hcall := l.yields_finishCall (hfresh.1.le.trans hle) hknown himport
    (.call receiver method args span) method use hplaced
  simp only [bind_assoc, pure_bind] at hcall
  rwa [Site.eval_call]

/-! ## All expressions -/

/-- An array in a variable and a position as an operand. -/
theorem delivers_element {array position : Expr} {code₁ code₂ : List Item} {name : String} {t : Ty}
    {index : Operand} {n₁ n₂ : Names}
    (h₁ : asVar (l.expr array .operand) n = ((code₁, name, t), n₁))
    (h₂ : asOperand (l.expr position .operand) n₁ = ((code₂, index), n₂))
    (iha : ∀ use, Computes c m env₀ (l.site.eval c env₀ array) (l.expr array use))
    (ihp : ∀ use, Computes c m env₀ (l.site.eval c env₀ position) (l.expr position use))
    (hvars : ∀ y ∈ l.site.vars array, ¬ IsGenerated y) (hagree : AgreeOff IsGenerated env₀ env)
    (hplaced : Placed m pc (code₁ ++ code₂)) :
    Delivers c m (n.NewVar n₂) pc (fun _ ↦ pc + codeSize (code₁ ++ code₂))
      (fun p env' ↦ env' name = p.1 ∧ index.eval c env' = pure p.2) env s
      ((l.site.eval c env₀ array >>= fun a ↦ l.site.eval c env₀ position >>= fun i ↦
        pure (a, i)) s) := by
  have hoperand : ∀ t, Use.operand ≠ .assign t := fun t h ↦ Use.noConfusion h
  rw [placed_append] at hplaced
  rw [codeSize_append, ← Nat.add_assoc]
  obtain ⟨hdraws, hreads⟩ := (l.expr_fresh array .operand).asVar n
  have hle := ((l.expr_fresh position .operand).asOperand n₁).1.le
  rw [h₁] at hdraws hreads
  rw [h₂] at hle
  have harray := (iha .operand).asVar (s := s) (n := n) (l.plainValue_expr array hoperand)
    (l.expr_fresh array _) hagree (by rw [h₁]; exact hplaced.1)
  rw [h₁] at harray
  refine harray.bind (fun y hy ↦ hy.mono (le_refl n) hle)
    (fun y (hy : n₁.NewVar n₂ y) ↦ hy.mono hdraws.le (le_refl _)) fun a env₁ s₁ hagree₁ ha ↦ ?_
  have hposition := (ihp .operand).asOperand (s := s₁) (n := n₁)
    (l.plainValue_expr position hoperand) (l.expr_fresh position _) (hagree.newVar hagree₁)
    (by rw [h₂]; exact hplaced.2)
  rw [h₂] at hposition
  refine hposition.map (fun i ↦ (a, i)) fun i env₂ hagree₂ hi ↦ ⟨?_, hi⟩
  exact (hreads.agree hvars (le_refl _) hagree₂ name List.mem_cons_self).trans ha

theorem computes_index {array position : Expr} {span : Span}
    (iha : ∀ use, Computes c m env₀ (l.site.eval c env₀ array) (l.expr array use))
    (ihp : ∀ use, Computes c m env₀ (l.site.eval c env₀ position) (l.expr position use))
    (hvars : ∀ y ∈ l.site.vars array, ¬ IsGenerated y) (use : Use) :
    Computes c m env₀ (l.site.eval c env₀ (.index array position span))
      (l.expr (.index array position span) use) := by
  intro n pc env s hagree hplaced
  rcases h₁ : asVar (l.expr array .operand) n with ⟨⟨code₁, name, t⟩, n₁⟩
  rcases h₂ : asOperand (l.expr position .operand) n₁ with ⟨⟨code₂, index⟩, n₂⟩
  have hload : Placed m pc (code₁ ++ code₂) → Yields c m (n.NewVar n₂) pc
      (pc + codeSize (code₁ ++ code₂)) (.single (.element name index t.elementOrInt)) env s
      (l.site.eval c env₀ (.index array position span) s) := by
    intro hplaced
    have hspec : l.site.eval c env₀ (.index array position span)
        = (l.site.eval c env₀ array >>= fun a ↦ l.site.eval c env₀ position >>= fun i ↦ pure (a, i))
          >>= fun p ↦ arrayLoad p.1 p.2 := by
      simp only [Site.eval, bind_assoc, pure_bind]
    rw [hspec]
    refine (l.delivers_element h₁ h₂ iha ihp hvars hagree hplaced).yields fun p env' _ hp ↦ ?_
    rw [Instr.value, Operand.eval, hp.1, hp.2, pure_bind]
  rcases l.expr_index h₁ h₂ span use with ⟨_, heq⟩ | ⟨_, heq⟩
  · rw [heq] at hplaced ⊢
    exact hload hplaced
  · have hle : n ≤ n₂ := by
      have hle₁ := ((l.expr_fresh array .operand).asVar n).1.le
      have hle₂ := ((l.expr_fresh position .operand).asOperand n₁).1.le
      rw [h₁] at hle₁
      rw [h₂] at hle₂
      exact hle₁.trans hle₂
    rw [heq] at hplaced ⊢
    rw [placed_append] at hplaced
    rw [codeSize_append, ← Nat.add_assoc, ← bind_pure (l.site.eval c env₀ _)]
    refine ((hload hplaced.1).assign (D := n.NewVar (n₂.bump .temp)) hplaced.2.1
      (fun y hy ↦ hy.mono (le_refl n) (Names.le_bump _ _)) ?_).yields fun v env' _ hv ↦
        congrArg pure hv
    exact (Names.newVar_next (k := .temp) rfl (le_refl _)).mono hle (le_refl _)

theorem computes_binary {op : BinOp} {left right : Expr} {span : Span}
    (ihl : ∀ use, Computes c m env₀ (l.site.eval c env₀ left) (l.expr left use))
    (ihr : ∀ use, Computes c m env₀ (l.site.eval c env₀ right) (l.expr right use))
    (hvars : ∀ y ∈ l.site.vars left, ¬ IsGenerated y) (use : Use) :
    Computes c m env₀ (l.site.eval c env₀ (.binary op left right span))
      (l.expr (.binary op left right span) use) := by
  intro n pc env s hagree hplaced
  have hoperand : ∀ t, Use.operand ≠ .assign t := fun t h ↦ Use.noConfusion h
  rw [l.expr_binary] at hplaced ⊢
  have hleft := ihl .operand n pc env s hagree
  obtain ⟨⟨hle, _, _⟩, hreads⟩ := l.expr_fresh left .operand n
  have hplain := l.plainValue_expr left hoperand n
  generalize l.expr left .operand n = first at *
  obtain ⟨a, n₁⟩ := first
  have hright := fun pc env' s' (hagree' : AgreeOff IsGenerated env env') ↦
    ihr .operand n₁ pc env' s' (hagree.trans hagree')
  obtain ⟨⟨hle', _, _⟩, _⟩ := l.expr_fresh right .operand n₁
  have hplain' := l.plainValue_expr right hoperand n₁
  generalize l.expr right .operand n₁ = second at *
  obtain ⟨b, n₂⟩ := second
  have hright' := fun pc env' s' (hagree' : AgreeOff (n.NewVar n₁) env env') ↦
    hright pc env' s' (hagree'.mono fun _ hy ↦ hy.isGenerated)
  have hshort := fun t isOr (hplaced : Placed m pc (shortCircuit a b t isOr n₂).1.code) ↦
    yields_shortCircuit (D := n.NewVar (shortCircuit a b t isOr n₂).2) hleft hright' hplaced
      (fun y hy ↦ hy.mono (le_refl n) (hle'.trans (le_shortCircuit a b t isOr n₂)))
      (fun y hy ↦ hy.mono hle (le_shortCircuit a b t isOr n₂))
      (fun y hy ↦ hy.mono (hle.trans hle') (le_refl _))
  cases op with
  | and => exact l.site.eval_shortCircuit left right span false ▸ hshort _ false hplaced
  | or => exact l.site.eval_shortCircuit left right span true ▸ hshort _ true hplaced
  | _ => exact yields_operation hle hle' hleft hright hplain hplain' hreads hvars hplaced

/-- **Lowered expressions compute what the expressions mean.** -/
theorem computes_expr {e : Expr} (hvars : ∀ y ∈ l.site.vars e, ¬ IsGenerated y)
    (hcalls : l.site.noVarargCalls e = true) (use : Use) :
    Computes c m env₀ (l.site.eval c env₀ e) (l.expr e use) := by
  have hoperand : ∀ t, Use.operand ≠ .assign t := fun t h ↦ Use.noConfusion h
  induction e generalizing use with
  | int value span => exact fun n pc env s _ _ ↦ Yields.of_value rfl
  | bool value span => exact fun n pc env s _ _ ↦ Yields.of_value (by cases value <;> rfl)
  | ident name span => exact l.computes_ident hvars
  | self span => exact fun n pc env s _ _ ↦ Yields.of_value rfl
  | paren inner span ih =>
    rw [Site.vars] at hvars
    rw [Site.noVarargCalls] at hcalls
    exact ih hvars hcalls use.inParens
  | arrayLit elements span ih =>
    rw [Site.vars] at hvars
    rw [Site.noVarargCalls] at hcalls
    have ih' : ∀ e ∈ elements, ∀ use, Computes c m env₀ (l.site.eval c env₀ e) (l.expr e use) :=
      fun e he ↦ ih e he (fun y hy ↦ hvars y (Site.vars_subset_varsAll he hy))
        (Site.noVarargCalls_of_mem hcalls he)
    refine computes_packed ?_ (fun name n ↦ ?_) fun name n pc env s hagree hold hplaced ↦ ?_
    · intro hlength v
      rw [List.length_eq_zero_iff.mp hlength]
      rfl
    · exact (l.fresh_stores (fun e' _ ↦ l.expr_fresh e') name .int32 0 n).le
    · exact l.delivers_stores ih' .int32 0 hagree hold hplaced
  | not operand span ih =>
    intro n pc env s hagree hplaced
    rw [Site.vars] at hvars
    rw [Site.noVarargCalls] at hcalls
    refine ((ih hvars hcalls .operand).asOperand (l.plainValue_expr operand hoperand)
      (l.expr_fresh operand _) hagree hplaced).yields fun v env' _ hv ↦ ?_
    exact (congrArg (· >>= negate) hv).trans (pure_bind v negate)
  | index array position span iha ihp =>
    rw [Site.vars] at hvars
    rw [Site.noVarargCalls, Bool.and_eq_true] at hcalls
    exact l.computes_index
      (iha (fun y hy ↦ hvars y (List.mem_append_left _ hy)) hcalls.1)
      (ihp (fun y hy ↦ hvars y (List.mem_append_right _ hy)) hcalls.2)
      (fun y hy ↦ hvars y (List.mem_append_left _ hy)) use
  | binary op left right span ihl ihr =>
    rw [Site.vars] at hvars
    rw [Site.noVarargCalls, Bool.and_eq_true] at hcalls
    exact l.computes_binary (ihl (fun y hy ↦ hvars y (List.mem_append_left _ hy)) hcalls.1)
      (ihr (fun y hy ↦ hvars y (List.mem_append_right _ hy)) hcalls.2)
      (fun y hy ↦ hvars y (List.mem_append_left _ hy)) use
  | call receiver method args span ihr iha =>
    have hvars' := hvars
    rw [Site.vars] at hvars'
    rw [Site.noVarargCalls, Bool.and_eq_true, Bool.and_eq_true] at hcalls
    exact l.computes_call (ihr (fun y hy ↦ hvars' y (List.mem_append_left _ hy)) hcalls.1.2)
      (fun e he ↦ iha e he
        (fun y hy ↦ hvars' y (List.mem_append_right _ (Site.vars_subset_varsAll he hy)))
        (Site.noVarargCalls_of_mem hcalls.2 he)) hvars hcalls.1.1 use
  | newArray element size span ih =>
    intro n pc env s hagree hplaced
    rw [Site.vars] at hvars
    rw [Site.noVarargCalls] at hcalls
    refine ((ih hvars hcalls .operand).asOperand (l.plainValue_expr size hoperand)
      (l.expr_fresh size _) hagree hplaced).yields fun v env' _ hv ↦ ?_
    exact (congrArg (· >>= Semantics.newArray) hv).trans (pure_bind v Semantics.newArray)
  | newObject className span =>
    intro n pc env s hagree hplaced
    have hnew : n.NewVar (n.bump .temp) (NameKind.temp.name (n.count .temp)) :=
      Names.newVar_next (k := .temp) rfl (le_refl _)
    have hvalue : Instr.value c env (.call (Call.newObject className))
      = Semantics.newObject (c.path className) := rfl
    have halloc := (Yields.of_value (D := n.NewVar (n.bump .temp)) (s := s) hvalue).assign
      hplaced.1 (fun _ hy ↦ hy) hnew
    rw [← bind_pure (l.site.eval c env₀ _)]
    refine Delivers.yields (Q := fun v env' ↦ env' (NameKind.temp.name (n.count .temp)) = v) ?_
      fun v env' _ hv ↦ congrArg pure hv
    refine halloc.bind (fun _ hy ↦ hy) (fun _ hy ↦ hy) fun v env₁ s₁ _ hv ↦ ?_
    refine Delivers.map (Q := fun _ env' ↦ env' = env₁) ?_ (fun _ ↦ v) fun _ env₂ _ h ↦ h ▸ hv
    refine Delivers.instr hplaced.2.1 (fun _ ↦ env₁) ?_ (fun _ ↦ AgreeOff.refl _ env₁) fun _ ↦ rfl
    simp only [Instr.exec, Instr.value, Call.construct, Call.eval, Operand.eval, hv, pure_bind]
    rfl
  | length array span ih =>
    intro n pc env s hagree hplaced
    rw [Site.vars] at hvars
    rw [Site.noVarargCalls] at hcalls
    rw [l.expr_length] at hplaced ⊢
    have hplacedArray := hplaced
    rw [stored_apply, placed_append] at hplacedArray
    have harray := (ih hvars hcalls .operand).asVar (s := s) (l.plainValue_expr array hoperand)
      (l.expr_fresh array _) hagree hplacedArray.1
    have hle := ((l.expr_fresh array .operand).asVar n).1.le
    generalize asVar (l.expr array .operand) n = first at *
    obtain ⟨⟨code, name, t⟩, n₁⟩ := first
    have hvalue : Yields c m (n.NewVar n₁) pc (pc + codeSize code)
        (.call (Call.lengthOf (.var name t))) env s
        (l.site.eval c env₀ (.length array span) s) :=
      harray.yields fun v env' _ hv ↦ congrArg arrayLength hv
    exact hvalue.stored (fun _ h ↦ Instr.noConfusion h) hplaced
      (fun y hy ↦ hy.mono (le_refl n) (le_stored _ _ _)) (fun y hy ↦ hy.mono hle (le_refl _))

/-- **A lowered expression means the same as the expression.**  Its code, run on its own from any
variables and any shared state, followed by its value, gives the value of the expression or raises
its exception, after the same calls, allocations and accesses in the same order.  No state on the
way differs from the first one in a variable other than those drawn for the expression. -/
theorem expr_preserves_evaluation (e : Expr) (use : Use) (n : Names)
    (hvars : ∀ y ∈ l.site.vars e, ¬ IsGenerated y) (hcalls : l.site.noVarargCalls e = true)
    (c : Context) (env : Env) (s : Shared) :
    Yields c (.ofCode (l.expr e use n).1.code) (n.NewVar (l.expr e use n).2) 0
        (codeSize (l.expr e use n).1.code) (l.expr e use n).1.value env s (l.site.eval c env e s)
      ∧ ∀ st, (Method.ofCode (l.expr e use n).1.code).Steps c (.running 0 env s) st →
        AgreeOff (n.NewVar (l.expr e use n).2) env st.env := by
  have hdraws := (l.expr_fresh e use n).1
  constructor
  · have hrun := l.computes_expr (c := c) hvars hcalls use n 0 env s (AgreeOff.refl _ env)
      (placed_ofCode hdraws.labels.1)
    rwa [Nat.zero_add] at hrun
  · intro st hsteps x hx
    refine Method.env_of_steps hsteps fun i hi hwrite ↦ hx (hdraws.writes x ?_)
    rw [instrs_ofCode] at hi
    exact mem_writesOf hi hwrite

/-- The statement for `a[0] < this.f(x) && true` on the right of an assignment, from a state in
which `a` holds an array and calls return seven. -/
theorem expr_preserves_evaluation_element_call :
    let table : SymbolTable :=
      { className := "A", superclass := none, imports := [], fields := [], privateFields := [],
        methods := [⟨"f", .int, false, true, [⟨"k", .int, false⟩], []⟩] }
    let decl : MethodDecl :=
      { name := "m", isPublic := true, isStatic := false, returns := { name := "int" },
        params := [], locals := [], body := [] }
    let l : Lowerer := ⟨table, ⟨[⟨"a", .local, some "m", .array .int, false⟩,
      ⟨"x", .local, some "m", .int, false⟩]⟩, decl⟩
    let e : Expr := .binary .and (.binary .less (.index (.ident "a" {}) (.int 0 {}) {})
      (.call (.self {}) "f" [.ident "x" {}] {}) {}) (.bool true {}) {}
    let r := l.expr e (.assign .boolean) {}
    let c : Context := ⟨fun _ h ↦ (.ok (.int 7), h), id, .ref 0⟩
    let env : Env := fun x ↦ if x = "a" then .ref 1 else .int 5
    let s : Shared := ⟨(default : Heap).setArray 1 [.int 4], []⟩
    l.site.noVarargCalls e = true
      ∧ Yields c (.ofCode r.1.code) (Names.NewVar {} r.2) 0 (codeSize r.1.code) r.1.value env s
        (.ok (.int 1) ⟨s.heap, [.arrayLoad 1 0, .call (.object (.ref 0)) "f" [.int 5]]⟩)
      ∧ ∀ st, (Method.ofCode r.1.code).Steps c (.running 0 env s) st →
        AgreeOff (Names.NewVar {} r.2) env st.env := by
  intro table decl l e r c env s
  have hvars : ∀ y ∈ l.site.vars e, ¬ IsGenerated y := by
    have hlist : l.site.vars e = ["a", "x"] := by decide
    have hheads : ∀ y ∈ ["a", "x"],
        ¬ (y.toList.head? = some 't' ∨ y.toList.head? = some '_') := by decide
    rw [hlist]
    exact fun y hy hgenerated ↦ hheads y hy hgenerated.head?
  have hvalue : l.site.eval c env e s
      = .ok (.int 1) ⟨s.heap, [.arrayLoad 1 0, .call (.object (.ref 0)) "f" [.int 5]]⟩ := by
    rfl
  exact ⟨by decide,
    hvalue ▸ l.expr_preserves_evaluation e (.assign .boolean) {} hvars (by decide) c env s⟩

end Lowerer
end Ollir
end Jmm
