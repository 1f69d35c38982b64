import Jmm.Proofs.Lowering.Fresh
import Jmm.Proofs.Semantics.Ollir

/-!
# Code in its place

Lowering makes code as a list of items, and a method keeps its instructions and its labels apart.
`Placed m pc code` says that the instructions of `code` stand in `m` from the index `pc` on, and
that its labels lead to where they stand between them.  It is what a run through the code needs to
know about the method, and it splits along `++` (`placed_append`).

`Method.extend` places what it adds if no label is placed twice (`placed_extend`).
-/

set_option autoImplicit false

namespace Jmm.Ollir

/-- The instruction that an item is. -/
def Item.instr? : Item → Option Instr
  | label _ => none
  | instr i => some i

/-- The instructions in code. -/
def instrsOf (code : List Item) : List Instr := code.filterMap Item.instr?

/-- The number of instructions in code. -/
def codeSize (code : List Item) : Nat := (instrsOf code).length

/-- What the instructions of code say, each by `f`, in their order. -/
def gather {β : Type} (f : Instr → List β) (code : List Item) : List β :=
  (instrsOf code).flatMap f

/-- The call that an instruction is or has inside. -/
def Instr.call? : Instr → Option Call
  | assign _ _ value => value.call?
  | branch test _ => test.call?
  | call c => some c
  | _ => none

/-- Whether a test holds for all instructions of code. -/
def every (p : Instr → Bool) (code : List Item) : Bool := (instrsOf code).all p

section

variable (a b : List Item) (name : String) (i : Instr)

@[simp] theorem instrsOf_append : instrsOf (a ++ b) = instrsOf a ++ instrsOf b :=
  List.filterMap_append

@[simp] theorem instrsOf_label : instrsOf (.label name :: a) = instrsOf a := rfl

@[simp] theorem instrsOf_instr : instrsOf (.instr i :: a) = i :: instrsOf a := rfl

@[simp] theorem codeSize_nil : codeSize [] = 0 := rfl

@[simp] theorem codeSize_append : codeSize (a ++ b) = codeSize a + codeSize b := by
  rw [codeSize, instrsOf_append, List.length_append, codeSize, codeSize]

@[simp] theorem codeSize_label : codeSize (.label name :: a) = codeSize a := rfl

@[simp] theorem codeSize_instr : codeSize (.instr i :: a) = codeSize a + 1 := rfl

@[simp] theorem codeSize_assignVar (t : Ty) :
    codeSize (assignVar name t i :: a) = codeSize a + 1 := rfl

variable {β : Type} (f : Instr → List β)

@[simp] theorem gather_nil : gather f [] = [] := rfl

@[simp] theorem gather_append : gather f (a ++ b) = gather f a ++ gather f b := by
  rw [gather, instrsOf_append, List.flatMap_append, gather, gather]

@[simp] theorem gather_label : gather f (.label name :: a) = gather f a := rfl

@[simp] theorem gather_instr : gather f (.instr i :: a) = f i ++ gather f a := rfl

@[simp] theorem gather_assignVar (t : Ty) :
    gather f (assignVar name t i :: a) = f (.assign (.var name t) t i) ++ gather f a := rfl

variable (p : Instr → Bool)

@[simp] theorem every_nil : every p [] = true := rfl

@[simp] theorem every_append : every p (a ++ b) = (every p a && every p b) := by
  rw [every, instrsOf_append, List.all_append, every, every]

@[simp] theorem every_label : every p (.label name :: a) = every p a := rfl

@[simp] theorem every_instr : every p (.instr i :: a) = (p i && every p a) := rfl

@[simp] theorem every_assignVar (t : Ty) :
    every p (assignVar name t i :: a) = (p (.assign (.var name t) t i) && every p a) := rfl

end

/-! ## Placed code -/

/-- The code stands in the method from an index on, and its labels lead there. -/
def Placed (m : Method) : Nat → List Item → Prop
  | _, [] => True
  | pc, .label name :: code => m.labelTarget? name = some pc ∧ Placed m pc code
  | pc, .instr i :: code => m.instrs[pc]? = some i ∧ Placed m (pc + 1) code

variable {m : Method} {pc : Nat}

@[simp] theorem placed_nil : Placed m pc [] ↔ True := Iff.rfl

@[simp] theorem placed_label {name : String} {code : List Item} :
    Placed m pc (.label name :: code) ↔ m.labelTarget? name = some pc ∧ Placed m pc code := Iff.rfl

@[simp] theorem placed_instr {i : Instr} {code : List Item} :
    Placed m pc (.instr i :: code) ↔ m.instrs[pc]? = some i ∧ Placed m (pc + 1) code := Iff.rfl

@[simp] theorem placed_assignVar {name : String} {t : Ty} {value : Instr} {code : List Item} :
    Placed m pc (assignVar name t value :: code)
      ↔ m.instrs[pc]? = some (.assign (.var name t) t value) ∧ Placed m (pc + 1) code := Iff.rfl

@[simp] theorem placed_append {a b : List Item} :
    Placed m pc (a ++ b) ↔ Placed m pc a ∧ Placed m (pc + codeSize a) b := by
  induction a generalizing pc with
  | nil => simp
  | cons item a ih =>
    cases item with
    | label name => rw [List.cons_append, placed_label, placed_label, ih, codeSize_label, and_assoc]
    | instr i =>
      rw [List.cons_append, placed_instr, placed_instr, ih, codeSize_instr, and_assoc,
        Nat.add_right_comm, Nat.add_assoc pc]

/-! ## Two branches -/

/-- A test with the code for the two branches, that for failure first. -/
def diamond (test : Instr) (trueLabel endLabel : String) (onFalse onTrue : List Item) : List Item :=
  .instr (.branch test trueLabel) :: (onFalse
    ++ .instr (.goto endLabel) :: .label trueLabel :: (onTrue ++ [.label endLabel]))

variable {test : Instr} {trueLabel endLabel : String} {onFalse onTrue : List Item}

theorem codeSize_diamond : codeSize (diamond test trueLabel endLabel onFalse onTrue)
    = 1 + codeSize onFalse + 1 + codeSize onTrue := by
  simp only [diamond, codeSize_instr, codeSize_append, codeSize_label, codeSize_nil]
  omega

theorem writesOf_diamond : writesOf (diamond test trueLabel endLabel onFalse onTrue)
    = writesOf onFalse ++ writesOf onTrue := by
  simp [diamond, writesOf_instr (i := .branch _ _) rfl, writesOf_instr (i := .goto _) rfl]

theorem gather_diamond {β : Type} (f : Instr → List β) :
    gather f (diamond test trueLabel endLabel onFalse onTrue)
      = f (.branch test trueLabel) ++ (gather f onFalse ++ (f (.goto endLabel)
        ++ gather f onTrue)) := by
  simp [diamond]

/-- The code of `&&` and `||` runs one of two branches. -/
theorem shortCircuit_diamond (left right : Lowered) (t : Ty) (isOr : Bool) (n : Names) :
    ∃ trueLabel endLabel result, n.NewVar (shortCircuit left right t isOr n).2 result
      ∧ (shortCircuit left right t isOr n).1
        = ⟨left.code ++ diamond left.value trueLabel endLabel
              (if isOr then right.code ++ [assignVar result t right.value]
                else [assignVar result t (.single (Operand.bool isOr))])
              (if isOr then [assignVar result t (.single (Operand.bool isOr))]
                else right.code ++ [assignVar result t right.value]),
            .single (.var result t)⟩ := by
  obtain ⟨trueLabel, endLabel, result, _, _, hr, heq⟩ := shortCircuit_apply left right t isOr n
  refine ⟨trueLabel, endLabel, result, ?_, ?_⟩
  · rw [heq, hr]
    exact ⟨.temp, n.count .temp, rfl, le_refl _, by simp, rfl⟩
  · rw [heq]
    simp only [diamond, List.append_assoc, List.cons_append, List.nil_append]

/-- Where the parts of two branches stand. -/
structure PlacedDiamond (m : Method) (pc : Nat) (test : Instr) (trueLabel endLabel : String)
    (onFalse onTrue : List Item) : Prop where
  hbranch : m.instrs[pc]? = some (.branch test trueLabel)
  hfalse : Placed m (pc + 1) onFalse
  hgoto : m.instrs[pc + 1 + codeSize onFalse]? = some (.goto endLabel)
  hlabel : m.labelTarget? trueLabel = some (pc + 1 + codeSize onFalse + 1)
  htrue : Placed m (pc + 1 + codeSize onFalse + 1) onTrue
  hend : m.labelTarget? endLabel = some (pc + 1 + codeSize onFalse + 1 + codeSize onTrue)

theorem placedDiamond_of_placed (h : Placed m pc (diamond test trueLabel endLabel onFalse onTrue)) :
    PlacedDiamond m pc test trueLabel endLabel onFalse onTrue := by
  simp only [diamond, placed_instr, placed_append, placed_label, placed_nil, and_true] at h
  obtain ⟨hbranch, hfalse, hgoto, htrue, honTrue, hend⟩ := h
  exact ⟨hbranch, hfalse, hgoto, htrue, honTrue, hend⟩

/-! ## Code that a method is extended by -/

/-- The labels in code that stands from an index on, each with where it leads. -/
def positions : Nat → List Item → List (String × Nat)
  | _, [] => []
  | pc, .label name :: code => (name, pc) :: positions pc code
  | pc, .instr _ :: code => positions (pc + 1) code

theorem map_fst_positions (pc : Nat) (code : List Item) :
    (positions pc code).map Prod.fst = labelsOf code := by
  induction code generalizing pc with
  | nil => rfl
  | cons item code ih =>
    cases item with
    | label name => rw [positions, List.map_cons, ih, labelsOf_label]
    | instr i => rw [positions, ih, labelsOf_instr]

theorem le_of_mem_positions {pc : Nat} {code : List Item} {l : String × Nat}
    (h : l ∈ positions pc code) : pc ≤ l.2 ∧ l.2 ≤ pc + codeSize code := by
  induction code generalizing pc with
  | nil => exact absurd h List.not_mem_nil
  | cons item code ih =>
    cases item with
    | label name =>
      rcases List.mem_cons.mp h with rfl | h
      · exact ⟨Nat.le_refl pc, Nat.le_add_right pc _⟩
      · exact ih h
    | instr i =>
      obtain ⟨hle, hge⟩ := ih h
      rw [codeSize_instr]
      omega

namespace Method

/-- What a method is extended by goes to the end of its instructions and labels. -/
theorem extend_eq (m : Method) (code : List Item) :
    m.extend code = { m with instrs := m.instrs ++ instrsOf code,
                             labels := m.labels ++ positions m.instrs.length code } := by
  induction code generalizing m with
  | nil => simp [extend, positions, instrsOf]
  | cons item code ih =>
    rw [extend, List.foldl_cons, ← extend, ih]
    cases item with
    | label name => simp [add, placeLabel, positions]
    | instr i => simp [add, push, positions]

theorem instrs_extend (m : Method) (code : List Item) :
    (m.extend code).instrs = m.instrs ++ instrsOf code := by
  rw [extend_eq]

theorem labels_extend (m : Method) (code : List Item) :
    (m.extend code).labels = m.labels ++ positions m.instrs.length code := by
  rw [extend_eq]

/-- A label that is placed once leads to where it is placed. -/
theorem labelTarget?_of_mem {m : Method} (h : (m.labels.map Prod.fst).Nodup) {name : String}
    {pc : Nat} (hmem : (name, pc) ∈ m.labels) : m.labelTarget? name = some pc := by
  rw [labelTarget?]
  generalize m.labels = labels at h hmem
  induction labels with
  | nil => exact absurd hmem List.not_mem_nil
  | cons first rest ih =>
    rw [List.map_cons, List.nodup_cons] at h
    rcases List.mem_cons.mp hmem with rfl | hmem
    · rw [List.find?_cons_of_pos (by simp)]
      rfl
    · have hne : first.1 ≠ name := fun heq ↦ h.1 (heq ▸ List.mem_map_of_mem hmem)
      rw [List.find?_cons_of_neg (by simpa using hne)]
      exact ih h.2 hmem

end Method

/-- Instructions and labels that a method has in their places make code placed. -/
theorem placed_of_subset {code : List Item} (hinstrs : ∀ k i, (instrsOf code)[k]? = some i →
      m.instrs[pc + k]? = some i)
    (hlabels : ∀ l ∈ positions pc code, m.labelTarget? l.1 = some l.2) : Placed m pc code := by
  induction code generalizing pc with
  | nil => trivial
  | cons item code ih =>
    cases item with
    | label name =>
      exact ⟨hlabels (name, pc) List.mem_cons_self,
        ih hinstrs fun l hl ↦ hlabels l (List.mem_cons_of_mem _ hl)⟩
    | instr i =>
      refine ⟨hinstrs 0 i rfl, ih (fun k j hj ↦ ?_) hlabels⟩
      rw [Nat.add_right_comm]
      exact hinstrs (k + 1) j hj

/-- **A method places what it is extended by**, here one without labels before. -/
theorem placed_extend {start : Method} (hlabels : start.labels = []) {code : List Item}
    (hnodup : (labelsOf code).Nodup) :
    Placed (start.extend code) start.instrs.length code := by
  have hpositions : (start.extend code).labels = positions start.instrs.length code := by
    rw [Method.labels_extend, hlabels, List.nil_append]
  refine placed_of_subset ?_ ?_
  · intro k i hi
    rw [Method.instrs_extend, List.getElem?_append_right (Nat.le_add_right _ _),
      Nat.add_sub_cancel_left]
    exact hi
  · intro l hl
    refine Method.labelTarget?_of_mem ?_ (hpositions ▸ hl)
    rw [hpositions, map_fst_positions]
    exact hnodup

/-! ## Code on its own -/

/-- A method that holds code and nothing else. -/
def Method.ofCode (code : List Item) : Method := Method.extend { name := "", returns := .void } code

theorem instrs_ofCode (code : List Item) : (Method.ofCode code).instrs = instrsOf code :=
  Method.instrs_extend _ code

theorem placed_ofCode {code : List Item} (hnodup : (labelsOf code).Nodup) :
    Placed (Method.ofCode code) 0 code :=
  placed_extend rfl hnodup

open Semantics

theorem Method.jump_env {label : String} {env env' : Env} {s s' : Shared} {pc' : Nat}
    (h : m.jump label env s = .ok (.goto pc' env') s') : env' = env := by
  rw [jump] at h
  cases htarget : m.labelTarget? label with
  | some pc =>
    rw [htarget] at h
    exact (Next.goto.inj (Outcome.ok.inj h).1).2.symm
  | none =>
    rw [htarget] at h
    exact nomatch h

/-- An instruction changes no variable but the one it assigns to. -/
theorem Instr.exec_env {i : Instr} {c : Context} {env env' : Env} {s s' : Shared} {pc' : Nat}
    (h : i.exec c m pc env s = .ok (.goto pc' env') s') {x : String}
    (hx : Item.write? (.instr i) ≠ some x) : env' x = env x := by
  have hsame : ∀ {s₁}, (pure (Next.goto (pc + 1) env) : Eval Next) s₁ = .ok (.goto pc' env') s' →
      env' x = env x := fun h ↦ by rw [(Next.goto.inj (Outcome.ok.inj h).1).2]
  cases i with
  | assign target t value =>
    cases target with
    | var y t' =>
      obtain ⟨v, s₁, _, h⟩ := Eval.bind_eq_ok h
      have hne : x ≠ y := fun heq ↦ hx (heq ▸ rfl)
      rw [← (Next.goto.inj (Outcome.ok.inj h).1).2, env.set_of_ne v hne]
    | element y index t' =>
      obtain ⟨_, _, _, h⟩ := Eval.bind_eq_ok h
      obtain ⟨_, _, _, h⟩ := Eval.bind_eq_ok h
      obtain ⟨_, _, _, h⟩ := Eval.bind_eq_ok h
      exact hsame h
    | _ => exact nomatch h
  | putField object field t value =>
    obtain ⟨_, _, _, h⟩ := Eval.bind_eq_ok h
    obtain ⟨_, _, _, h⟩ := Eval.bind_eq_ok h
    obtain ⟨_, _, _, h⟩ := Eval.bind_eq_ok h
    exact hsame h
  | branch test label =>
    obtain ⟨_, _, _, h⟩ := Eval.bind_eq_ok h
    obtain ⟨b, _, _, h⟩ := Eval.bind_eq_ok h
    cases b with
    | true => rw [Method.jump_env h]
    | false => exact hsame h
  | goto label => rw [Method.jump_env h]
  | ret t value =>
    cases value with
    | none => exact nomatch h
    | some o =>
      obtain ⟨_, _, _, h⟩ := Eval.bind_eq_ok h
      exact nomatch h
  | _ =>
    obtain ⟨_, _, _, h⟩ := Eval.bind_eq_ok h
    exact hsame h

/-- A step changes no variable that no instruction of the method assigns to. -/
theorem Method.step_env {c : Context} {st st' : State} (h : m.step c st = some st') {x : String}
    (hx : ∀ i ∈ m.instrs, Item.write? (.instr i) ≠ some x) : st'.env x = st.env x := by
  cases st with
  | running pc env s =>
    rw [step] at h
    split at h
    · rename_i i hi
      cases hexec : i.exec c m pc env s with
      | ok next s' =>
        rw [hexec] at h
        cases next with
        | goto pc' env' =>
          obtain rfl := Option.some.inj h
          exact Instr.exec_env hexec (hx i (List.mem_of_getElem? hi))
        | returned v =>
          obtain rfl := Option.some.inj h
          rfl
      | raised e s' =>
        rw [hexec] at h
        obtain rfl := Option.some.inj h
        rfl
      | undefined =>
        rw [hexec] at h
        cases h
    · cases h
  | _ => cases h

/-- A run changes no variable that no instruction of the method assigns to. -/
theorem Method.env_of_steps {c : Context} {st st' : State} (h : m.Steps c st st') {x : String}
    (hx : ∀ i ∈ m.instrs, Item.write? (.instr i) ≠ some x) : st'.env x = st.env x := by
  induction h with
  | refl => rfl
  | tail _ hstep ih => exact (step_env hstep hx).trans ih

theorem mem_writesOf {code : List Item} {i : Instr} (hi : i ∈ instrsOf code) {x : String}
    (hx : Item.write? (.instr i) = some x) : x ∈ writesOf code := by
  obtain ⟨item, hitem, hi⟩ := List.mem_filterMap.mp hi
  cases item with
  | label name => exact nomatch hi
  | instr j =>
    obtain rfl := Option.some.inj hi
    exact List.mem_filterMap.mpr ⟨_, hitem, hx⟩

end Jmm.Ollir
