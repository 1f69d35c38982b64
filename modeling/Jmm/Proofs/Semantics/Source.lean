import Jmm.Typing.Infer
import Jmm.Proofs.Semantics.Eval

/-!
# Running programs

The big-step meaning of the expressions and statements of a method.

Expressions are evaluated from left to right and do not change variables.  The right operand of
`&&` is evaluated only if the left one is true, that of `||` only if it is false.  A name means the
variable or field that `Scopes.lookup` finds for it; the name of an import has no value and only
serves to call a method of its class.

`Exec` relates statements and the state before them to the way they end and the state after them.
It has no rule for what does not end.
-/

set_option autoImplicit false

namespace Jmm

open Semantics

namespace Site

/-! ## Expressions -/

/-- The import that an expression names. -/
def import? (s : Site) : Expr → Option String
  | .ident name _ => if s.table.isImport name then some name else none
  | _ => none

/-- The value of a name. -/
def readName (s : Site) (c : Context) (env : Env) (name : String) : Eval Val :=
  if s.table.isImport name then Eval.undefined
  else
    match s.scopes.lookup name s.method with
    | some e => if e.kind = .field then getField c.self name else pure (env name)
    | none => Eval.undefined

mutual

/-- The value of an expression. -/
def eval (s : Site) (c : Context) (env : Env) : Expr → Eval Val
  | .int value _ => pure (.int value)
  | .bool value _ => pure (.ofBool value)
  | .ident name _ => s.readName c env name
  | .self _ => pure c.self
  | .paren inner _ => s.eval c env inner
  | .arrayLit elements _ => do
    let array ← newArray (.int (Int32.ofNat elements.length))
    s.fill c env array 0 elements
    return array
  | .not operand _ => do negate (← s.eval c env operand)
  | .index array position _ => do
    let a ← s.eval c env array
    let i ← s.eval c env position
    arrayLoad a i
  | .binary op left right _ =>
    match op with
    | .and => do
      if ← truth (← s.eval c env left) then s.eval c env right else return .ofBool false
    | .or => do
      if ← truth (← s.eval c env left) then return .ofBool true else s.eval c env right
    | op => do
      let x ← s.eval c env left
      let y ← s.eval c env right
      operate op x y
  | .call receiver method args _ => do
    let target ←
      match s.import? receiver with
      | some name => pure (Target.static (c.path name))
      | none => do pure (Target.object (← s.eval c env receiver))
    let vs ← s.evals c env args
    invoke c.world target method vs
  | .newArray _ size _ => do newArray (← s.eval c env size)
  | .newObject className _ => do
    let object ← newObject (c.path className)
    let _ ← invoke c.world (.object object) constructorName []
    return object
  | .length array _ => do arrayLength (← s.eval c env array)

/-- The values of expressions, the first one first. -/
def evals (s : Site) (c : Context) (env : Env) : List Expr → Eval (List Val)
  | [] => pure []
  | e :: es => do
    let v ← s.eval c env e
    let vs ← s.evals c env es
    return v :: vs

/-- Stores the values of expressions in an array, each as soon as it is known, from a position
on. -/
def fill (s : Site) (c : Context) (env : Env) (array : Val) : Nat → List Expr → Eval Unit
  | _, [] => pure ()
  | position, e :: es => do
    let v ← s.eval c env e
    arrayStore array (.int (Int32.ofNat position)) v
    s.fill c env array (position + 1) es

end

/-- The meaning of `&&`, and of `||` if `isOr` is set, in one form. -/
theorem eval_shortCircuit {c : Context} {env : Env} (s : Site) (left right : Expr) (span : Span)
    (isOr : Bool) :
    s.eval c env (.binary (if isOr then .or else .and) left right span)
      = (s.eval c env left >>= truth) >>= fun b ↦
        if b = isOr then pure (.ofBool isOr) else s.eval c env right := by
  cases isOr with
  | false =>
    simp only [Bool.false_eq_true, if_false, eval, bind_assoc]
    refine bind_congr fun v ↦ bind_congr fun b ↦ ?_
    cases b <;> rfl
  | true => simp only [if_true, eval, bind_assoc]

theorem eval_call (s : Site) (c : Context) (env : Env) (receiver : Expr) (method : String)
    (args : List Expr) (span : Span) :
    s.eval c env (.call receiver method args span)
      = (match s.import? receiver with
          | some name => pure (Target.static (c.path name))
          | none => do pure (Target.object (← s.eval c env receiver)))
        >>= fun target ↦ s.evals c env args >>= fun vs ↦ invoke c.world target method vs := by
  rw [eval]
  cases s.import? receiver <;> simp only [pure_bind, bind_assoc]

/-! ## Statements -/

/-- The variables after an assignment.  Only a name or an element of an array can be assigned
to. -/
def assign (s : Site) (c : Context) (env : Env) (target value : Expr) : Eval Env :=
  match target with
  | .ident name _ =>
    if s.table.isImport name then Eval.undefined
    else
      match s.scopes.lookup name s.method with
      | some e => do
        let v ← s.eval c env value
        if e.kind = .field then do
          putField c.self name v
          return env
        else return env.set name v
      | none => Eval.undefined
  | .index array position _ => do
    let a ← s.eval c env array
    let i ← s.eval c env position
    let v ← s.eval c env value
    arrayStore a i v
    return env
  | _ => Eval.undefined

/-- A condition. -/
def test (s : Site) (c : Context) (env : Env) (e : Expr) : Eval Bool := do
  truth (← s.eval c env e)

end Site

/-- How statements end. -/
inductive Ending where
  | normal
  | returned (v : Option Val)
  | raised (x : Exn)
deriving DecidableEq, Repr, Inhabited

/-- A statement, or statements one after the other. -/
inductive Code where
  | stmt (s : Stmt)
  | block (ss : List Stmt)

/-- Statements take variables and a shared state to others, and end in some way. -/
inductive Exec (site : Site) (c : Context) :
    Code → Env → Shared → Ending → Env → Shared → Prop
  | assign {target value : Expr} {span : Span} {env env' : Env} {s s' : Shared}
      (h : site.assign c env target value s = .ok env' s') :
      Exec site c (.stmt (.assign target value span)) env s .normal env' s'
  | assignRaised {target value : Expr} {span : Span} {env : Env} {s s' : Shared} {x : Exn}
      (h : site.assign c env target value s = .raised x s') :
      Exec site c (.stmt (.assign target value span)) env s (.raised x) env s'
  | expr {e : Expr} {span : Span} {env : Env} {s s' : Shared} {v : Val}
      (h : site.eval c env e s = .ok v s') :
      Exec site c (.stmt (.expr e span)) env s .normal env s'
  | exprRaised {e : Expr} {span : Span} {env : Env} {s s' : Shared} {x : Exn}
      (h : site.eval c env e s = .raised x s') :
      Exec site c (.stmt (.expr e span)) env s (.raised x) env s'
  | retNone {span : Span} {env : Env} {s : Shared} :
      Exec site c (.stmt (.ret none span)) env s (.returned none) env s
  | ret {e : Expr} {span : Span} {env : Env} {s s' : Shared} {v : Val}
      (h : site.eval c env e s = .ok v s') :
      Exec site c (.stmt (.ret (some e) span)) env s (.returned (some v)) env s'
  | retRaised {e : Expr} {span : Span} {env : Env} {s s' : Shared} {x : Exn}
      (h : site.eval c env e s = .raised x s') :
      Exec site c (.stmt (.ret (some e) span)) env s (.raised x) env s'
  | cond {test : Expr} {thenBranch elseBranch : List Stmt} {span : Span} {env env' : Env}
      {s s₁ s' : Shared} {b : Bool} {r : Ending} (h : site.test c env test s = .ok b s₁)
      (hr : Exec site c (.block (if b then thenBranch else elseBranch)) env s₁ r env' s') :
      Exec site c (.stmt (.cond test thenBranch elseBranch span)) env s r env' s'
  | condRaised {test : Expr} {thenBranch elseBranch : List Stmt} {span : Span} {env : Env}
      {s s' : Shared} {x : Exn} (h : site.test c env test s = .raised x s') :
      Exec site c (.stmt (.cond test thenBranch elseBranch span)) env s (.raised x) env s'
  | loopDone {test : Expr} {body : List Stmt} {span : Span} {env : Env} {s s' : Shared}
      (h : site.test c env test s = .ok false s') :
      Exec site c (.stmt (.loop test body span)) env s .normal env s'
  | loopRaised {test : Expr} {body : List Stmt} {span : Span} {env : Env} {s s' : Shared}
      {x : Exn} (h : site.test c env test s = .raised x s') :
      Exec site c (.stmt (.loop test body span)) env s (.raised x) env s'
  | loopNext {test : Expr} {body : List Stmt} {span : Span} {env env₁ env' : Env}
      {s s₁ s₂ s' : Shared} {r : Ending} (h : site.test c env test s = .ok true s₁)
      (hb : Exec site c (.block body) env s₁ .normal env₁ s₂)
      (hr : Exec site c (.stmt (.loop test body span)) env₁ s₂ r env' s') :
      Exec site c (.stmt (.loop test body span)) env s r env' s'
  | loopLeft {test : Expr} {body : List Stmt} {span : Span} {env env' : Env}
      {s s₁ s' : Shared} {r : Ending} (h : site.test c env test s = .ok true s₁)
      (hb : Exec site c (.block body) env s₁ r env' s') (hne : r ≠ .normal) :
      Exec site c (.stmt (.loop test body span)) env s r env' s'
  | nil {env : Env} {s : Shared} : Exec site c (.block []) env s .normal env s
  | cons {st : Stmt} {ss : List Stmt} {env env₁ env' : Env} {s s₁ s' : Shared} {r : Ending}
      (h : Exec site c (.stmt st) env s .normal env₁ s₁)
      (hr : Exec site c (.block ss) env₁ s₁ r env' s') :
      Exec site c (.block (st :: ss)) env s r env' s'
  | consLeft {st : Stmt} {ss : List Stmt} {env env' : Env} {s s' : Shared} {r : Ending}
      (h : Exec site c (.stmt st) env s r env' s') (hne : r ≠ .normal) :
      Exec site c (.block (st :: ss)) env s r env' s'

end Jmm
