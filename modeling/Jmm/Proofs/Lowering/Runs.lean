import Jmm.Proofs.Lowering.Placement

/-!
# Runs that compute something

Two statements about a piece of a method, in the form in which they are put together.

* `Delivers c m D pc dest Q env s x`: the run from the index `pc` does what the outcome `x` says.
  If it is a value `a`, the run reaches the index `dest a` with variables of which `Q a` holds and
  with the shared state of the outcome; if it is an exception, the run ends in that exception.
* `Yields c m D pc pc' value env s x`: the run reaches `pc'`, and the instruction `value`, computed
  there, does the rest of what `x` says.

In both, the run leaves all variables alone that `D` does not hold of.  An undefined outcome says
nothing.  `Delivers.bind` runs one piece after the other, `Yields.instr` lets an instruction consume
the value, and `Delivers.yields` leaves the last part of a computation to a value.
-/

set_option autoImplicit false

namespace Jmm.Ollir

open Semantics

/-! ## Variables left alone -/

/-- The variables are the same but for those of which `D` holds. -/
def AgreeOff (D : String → Prop) (env env' : Env) : Prop := ∀ x, ¬ D x → env' x = env x

namespace AgreeOff

variable {D D' : String → Prop} {env env' env'' : Env}

theorem refl (D : String → Prop) (env : Env) : AgreeOff D env env := fun _ _ ↦ rfl

theorem trans (h : AgreeOff D env env') (h' : AgreeOff D env' env'') : AgreeOff D env env'' :=
  fun x hx ↦ (h' x hx).trans (h x hx)

theorem mono (h : AgreeOff D env env') (hD : ∀ x, D x → D' x) : AgreeOff D' env env' :=
  fun x hx ↦ h x fun hd ↦ hx (hD x hd)

theorem set (D : String → Prop) (env : Env) {x : String} (hx : D x) (v : Val) :
    AgreeOff D env (env.set x v) :=
  fun _ hy ↦ env.set_of_ne v fun heq ↦ hy (heq ▸ hx)

end AgreeOff

/-! ## The two statements -/

/-- A run that does what an outcome says. -/
def Delivers {α : Type} (c : Context) (m : Method) (D : String → Prop) (pc : Nat) (dest : α → Nat)
    (Q : α → Env → Prop) (env : Env) (s : Shared) : Outcome α → Prop
  | .ok a s' => ∃ env', m.Steps c (.running pc env s) (.running (dest a) env' s')
      ∧ AgreeOff D env env' ∧ Q a env'
  | .raised x s' => ∃ env', m.Steps c (.running pc env s) (.raised x env' s') ∧ AgreeOff D env env'
  | .undefined => True

/-- A run to an index at which an instruction does the rest of what an outcome says. -/
def Yields (c : Context) (m : Method) (D : String → Prop) (pc pc' : Nat) (value : Instr) (env : Env)
    (s : Shared) : Outcome Val → Prop
  | .ok v s' => ∃ env' s₁, m.Steps c (.running pc env s) (.running pc' env' s₁)
      ∧ AgreeOff D env env' ∧ value.value c env' s₁ = .ok v s'
  | .raised x s' =>
      (∃ env', m.Steps c (.running pc env s) (.raised x env' s') ∧ AgreeOff D env env')
        ∨ ∃ env' s₁, m.Steps c (.running pc env s) (.running pc' env' s₁)
          ∧ AgreeOff D env env' ∧ value.value c env' s₁ = .raised x s'
  | .undefined => True

variable {α β : Type} {c : Context} {m : Method} {D D₁ D₂ : String → Prop} {pc pc' : Nat}
  {env : Env} {s : Shared}

namespace Delivers

/-- The run of no steps. -/
theorem of_pure {dest : α → Nat} {Q : α → Env → Prop} {a : α} (hdest : dest a = pc) (h : Q a env) :
    Delivers c m D pc dest Q env s ((pure a : Eval α) s) := by
  refine ⟨env, ?_, AgreeOff.refl D env, h⟩
  rw [hdest]

theorem mono {dest : α → Nat} {Q Q' : α → Env → Prop} {x : Outcome α}
    (h : Delivers c m D₁ pc dest Q env s x) (hD : ∀ y, D₁ y → D y)
    (hQ : ∀ a env', AgreeOff D₁ env env' → Q a env' → Q' a env') :
    Delivers c m D pc dest Q' env s x := by
  cases x with
  | ok a s' =>
    obtain ⟨env', hsteps, hagree, hq⟩ := h
    exact ⟨env', hsteps, hagree.mono hD, hQ a env' hagree hq⟩
  | raised e s' =>
    obtain ⟨env', hsteps, hagree⟩ := h
    exact ⟨env', hsteps, hagree.mono hD⟩
  | undefined => trivial

/-- One piece after the other. -/
theorem bind {dest₁ : α → Nat} {dest : β → Nat} {Q₁ : α → Env → Prop} {Q : β → Env → Prop}
    {x : Eval α} {f : α → Eval β} (h : Delivers c m D₁ pc dest₁ Q₁ env s (x s))
    (h₁ : ∀ y, D₁ y → D y) (h₂ : ∀ y, D₂ y → D y)
    (hnext : ∀ a env' s', AgreeOff D₁ env env' → Q₁ a env' →
      Delivers c m D₂ (dest₁ a) dest Q env' s' (f a s')) :
    Delivers c m D pc dest Q env s ((x >>= f) s) := by
  cases hx : x s with
  | ok a s' =>
    rw [hx] at h
    obtain ⟨env', hsteps, hagree, hq⟩ := h
    have hrest := hnext a env' s' hagree hq
    rw [Eval.bind_of_ok hx]
    cases hf : f a s' with
    | ok b s'' =>
      rw [hf] at hrest
      obtain ⟨env'', hsteps', hagree', hq'⟩ := hrest
      exact ⟨env'', hsteps.trans hsteps', (hagree.mono h₁).trans (hagree'.mono h₂), hq'⟩
    | raised e s'' =>
      rw [hf] at hrest
      obtain ⟨env'', hsteps', hagree'⟩ := hrest
      exact ⟨env'', hsteps.trans hsteps', (hagree.mono h₁).trans (hagree'.mono h₂)⟩
    | undefined => trivial
  | raised e s' =>
    rw [hx] at h
    obtain ⟨env', hsteps, hagree⟩ := h
    rw [Eval.bind_of_raised hx]
    exact ⟨env', hsteps, hagree.mono h₁⟩
  | undefined =>
    rw [Eval.bind_of_undefined hx]
    trivial

/-- A result that is only rearranged. -/
theorem map {Q : α → Env → Prop} {Q' : β → Env → Prop} {x : Eval α}
    (h : Delivers c m D pc (fun _ ↦ pc') Q env s (x s)) (f : α → β)
    (hQ : ∀ a env', AgreeOff D env env' → Q a env' → Q' (f a) env') :
    Delivers c m D pc (fun _ ↦ pc') Q' env s ((x >>= fun a ↦ pure (f a)) s) :=
  h.bind (fun _ hy ↦ hy) (fun _ hy ↦ hy) fun a env' _ hagree hq ↦
    of_pure rfl (hQ a env' hagree hq)

/-- The last part of a computation is left to a value. -/
theorem yields {Q : α → Env → Prop} {x : Eval α} {f : α → Eval Val} {value : Instr}
    (h : Delivers c m D pc (fun _ ↦ pc') Q env s (x s))
    (hvalue : ∀ a env', AgreeOff D env env' → Q a env' → value.value c env' = f a) :
    Yields c m D pc pc' value env s ((x >>= f) s) := by
  cases hx : x s with
  | ok a s' =>
    rw [hx] at h
    obtain ⟨env', hsteps, hagree, hq⟩ := h
    have hv := hvalue a env' hagree hq
    rw [Eval.bind_of_ok hx]
    cases hf : f a s' with
    | ok v s'' => exact ⟨env', s', hsteps, hagree, by rw [hv, hf]⟩
    | raised e s'' => exact .inr ⟨env', s', hsteps, hagree, by rw [hv, hf]⟩
    | undefined => trivial
  | raised e s' =>
    rw [hx] at h
    rw [Eval.bind_of_raised hx]
    exact .inl h
  | undefined =>
    rw [Eval.bind_of_undefined hx]
    trivial

/-- One instruction. -/
theorem instr {i : Instr} (hi : m.instrs[pc]? = some i) {dest : α → Nat} (upd : α → Env)
    {Q : α → Env → Prop} {x : Eval α}
    (hexec : i.exec c m pc env = x >>= fun a ↦ pure (.goto (dest a) (upd a)))
    (hupd : ∀ a, AgreeOff D env (upd a)) (hQ : ∀ a, Q a (upd a)) :
    Delivers c m D pc dest Q env s (x s) := by
  have hstep := hexec ▸ m.step_running (c := c) hi env s
  rw [Eval.bind_apply] at hstep
  cases hx : x s with
  | ok a s' =>
    rw [hx] at hstep
    exact ⟨upd a, Relation.ReflTransGen.single hstep, hupd a, hQ a⟩
  | raised e s' =>
    rw [hx] at hstep
    exact ⟨env, Relation.ReflTransGen.single hstep, AgreeOff.refl D env⟩
  | undefined => trivial

/-- A jump at the end. -/
theorem goto {Q : α → Env → Prop} {x : Outcome α} {p q : Nat}
    (h : Delivers c m D pc (fun _ ↦ p) Q env s x) {label : String}
    (hi : m.instrs[p]? = some (.goto label)) (htarget : m.labelTarget? label = some q) :
    Delivers c m D pc (fun _ ↦ q) Q env s x := by
  cases x with
  | ok a s' =>
    obtain ⟨env', hsteps, hagree, hq⟩ := h
    refine ⟨env', hsteps.tail ?_, hagree, hq⟩
    rw [m.step_running hi, Instr.exec, Method.jump, htarget]
    rfl
  | raised e s' => exact h
  | undefined => trivial

end Delivers

namespace Yields

variable {value : Instr} {x : Eval Val}

/-- A value that needs no code. -/
theorem of_value (h : value.value c env = x) : Yields c m D pc pc value env s (x s) := by
  cases hx : x s with
  | ok v s' => exact ⟨env, s, .refl, AgreeOff.refl D env, by rw [h, hx]⟩
  | raised e s' => exact .inr ⟨env, s, .refl, AgreeOff.refl D env, by rw [h, hx]⟩
  | undefined => trivial

/-- An instruction that goes on with the value. -/
theorem instr (h : Yields c m D₁ pc pc' value env s (x s)) {i : Instr}
    (hi : m.instrs[pc']? = some i) {f : Val → Eval α} {dest : α → Nat} (upd : α → Env → Env)
    {Q : α → Env → Prop}
    (hexec : ∀ env', AgreeOff D₁ env env' → i.exec c m pc' env'
      = value.value c env' >>= fun v ↦ f v >>= fun a ↦ pure (.goto (dest a) (upd a env')))
    (h₁ : ∀ y, D₁ y → D y) (hupd : ∀ a env', AgreeOff D env' (upd a env'))
    (hQ : ∀ a env', AgreeOff D₁ env env' → Q a (upd a env')) :
    Delivers c m D pc dest Q env s ((x >>= f) s) := by
  -- the step from variables at which the value is known
  have hstep : ∀ env' s₁, AgreeOff D₁ env env' → m.step c (.running pc' env' s₁)
      = State.after env' ((value.value c env'
        >>= fun v ↦ f v >>= fun a ↦ pure (.goto (dest a) (upd a env'))) s₁) := by
    intro env' s₁ hagree
    rw [m.step_running hi, hexec env' hagree]
  cases hx : x s with
  | ok v s' =>
    rw [hx] at h
    obtain ⟨env', s₁, hsteps, hagree, hv⟩ := h
    have hlast := hstep env' s₁ hagree
    rw [Eval.bind_of_ok hv, Eval.bind_apply] at hlast
    rw [Eval.bind_of_ok hx]
    cases hf : f v s' with
    | ok a s'' =>
      rw [hf] at hlast
      exact ⟨upd a env', hsteps.tail hlast, (hagree.mono h₁).trans (hupd a env'),
        hQ a env' hagree⟩
    | raised e s'' =>
      rw [hf] at hlast
      exact ⟨env', hsteps.tail hlast, hagree.mono h₁⟩
    | undefined => trivial
  | raised e s' =>
    rw [hx] at h
    rw [Eval.bind_of_raised hx]
    rcases h with ⟨env', hsteps, hagree⟩ | ⟨env', s₁, hsteps, hagree, hv⟩
    · exact ⟨env', hsteps, hagree.mono h₁⟩
    · have hlast := hstep env' s₁ hagree
      rw [Eval.bind_of_raised hv] at hlast
      exact ⟨env', hsteps.tail hlast, hagree.mono h₁⟩
  | undefined =>
    rw [Eval.bind_of_undefined hx]
    trivial

/-- The value is assigned to a variable. -/
theorem assign (h : Yields c m D₁ pc pc' value env s (x s)) {name : String} {t t' : Ty}
    (hi : m.instrs[pc']? = some (.assign (.var name t) t' value)) (h₁ : ∀ y, D₁ y → D y)
    (hname : D name) :
    Delivers c m D pc (fun _ ↦ pc' + 1) (fun v env' ↦ env' name = v) env s (x s) := by
  rw [← bind_pure x]
  refine h.instr hi (fun v env' ↦ env'.set name v) ?_ h₁
    (fun v env' ↦ AgreeOff.set D env' hname v) (fun v env' _ ↦ env'.set_same name v)
  intro env' _
  simp only [Instr.exec, pure_bind]

/-- The value is tested. -/
theorem branch (h : Yields c m D pc pc' value env s (x s)) {label : String} {q : Nat}
    (hi : m.instrs[pc']? = some (.branch value label)) (htarget : m.labelTarget? label = some q) :
    Delivers c m D pc (fun b ↦ if b then q else pc' + 1) (fun _ _ ↦ True) env s
      ((x >>= truth) s) := by
  refine h.instr hi (fun _ env' ↦ env') ?_ (fun _ hy ↦ hy)
    (fun _ env' ↦ AgreeOff.refl D env') (fun _ _ _ ↦ trivial)
  intro env' _
  rw [Instr.exec]
  refine bind_congr fun v ↦ bind_congr fun b ↦ ?_
  cases b with
  | true => rw [if_pos rfl, if_pos rfl, Method.jump, htarget]
  | false => rfl

end Yields
end Jmm.Ollir
