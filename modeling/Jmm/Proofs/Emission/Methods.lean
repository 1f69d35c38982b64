import Jmm.Compile
import Jmm.Proofs.Emission.Instructions
import Jmm.Proofs.Emission.Labels
import Jmm.Proofs.Semantics.AssemblyText

/-!
# Assembly simulates OLLIR

The lines of a method of assembly are emitted for its listing, in which labels and instructions
stand in order.  `Emitter.lineOf` is the line at which the code of an instruction starts, after its
labels.  From there the machine does what the instruction does and gets to the line of the
instruction that comes next, so a run of the method is a run of the machine
(`assemble_simulates`).
-/

set_option autoImplicit false

namespace Jmm

namespace Ollir.Method

variable {m : Method} {pc : Nat} {i : Instr}

/-! ## Listings -/

theorem listingFrom_append (m : Method) (index : Nat) (is : List Instr) (i : Instr)
    (js : List Instr) :
    m.listingFrom index (is ++ i :: js)
      = m.listingFrom index is ++ .instr i :: m.listingFrom (index + is.length + 1) js := by
  induction is generalizing index with
  | nil => rfl
  | cons j is ih =>
    have hindex : index + 1 + is.length = index + (j :: is).length := by
      rw [List.length_cons]
      omega
    rw [List.cons_append, listingFrom, ih, listingFrom, List.append_assoc, List.cons_append, hindex]

/-- The listing up to an instruction, with the labels before it. -/
def before (m : Method) (pc : Nat) : List Item := m.listingFrom 0 (m.instrs.take pc)

theorem before_zero (m : Method) : m.before 0 = (m.labelsAt 0).map .label := rfl

theorem before_succ (hi : m.instrs[pc]? = some i) :
    m.before (pc + 1) = m.before pc ++ .instr i :: (m.labelsAt (pc + 1)).map .label := by
  obtain ⟨hlt, _⟩ := List.getElem?_eq_some_iff.mp hi
  rw [before, List.take_add_one, hi, Option.toList_some, listingFrom_append, List.length_take,
    Nat.min_eq_left hlt.le, Nat.zero_add]
  rfl

theorem before_append (m : Method) (pc : Nat) : ∃ rest, m.listing = m.before pc ++ rest := by
  rw [listing, before]
  cases hdrop : m.instrs.drop pc with
  | nil =>
    have hall := List.take_append_drop pc m.instrs
    rw [hdrop, List.append_nil] at hall
    exact ⟨[], by rw [hall, List.append_nil]⟩
  | cons i is =>
    have hall := List.take_append_drop pc m.instrs
    rw [hdrop] at hall
    exact ⟨_, by rw [← listingFrom_append, hall]⟩

theorem before_eq_append_labels (h : pc ≤ m.instrs.length) :
    ∃ front, m.before pc = front ++ (m.labelsAt pc).map .label := by
  cases pc with
  | zero => exact ⟨[], rfl⟩
  | succ pc =>
    have hi := List.getElem?_eq_getElem (Nat.lt_of_succ_le h)
    exact ⟨m.before pc ++ [.instr _], by rw [before_succ hi, List.append_assoc]; rfl⟩

theorem mem_labelsAt_of_labelTarget? {label : String} (h : m.labelTarget? label = some pc) :
    label ∈ m.labelsAt pc ∧ ∃ l ∈ m.labels, l.2 = pc := by
  obtain ⟨l, hl, rfl⟩ := Option.map_eq_some_iff.mp h
  have hname : l.1 = label := by simpa using List.find?_some hl
  have hmem := List.mem_of_find?_eq_some hl
  refine ⟨?_, l, hmem, rfl⟩
  rw [labelsAt, ← hname]
  exact List.mem_map_of_mem (List.mem_filter.mpr ⟨hmem, by simp⟩)

/-! ## Methods made from code -/

theorem listingFrom_congr {m m' : Method} {index : Nat} (is : List Instr)
    (h : ∀ k, index ≤ k → m.labelsAt k = m'.labelsAt k) :
    m.listingFrom index is = m'.listingFrom index is := by
  induction is generalizing index with
  | nil => rw [listingFrom, listingFrom, h index (Nat.le_refl _)]
  | cons i is ih =>
    rw [listingFrom, listingFrom, h index (Nat.le_refl _),
      ih fun k hk ↦ h k (Nat.le_of_succ_le hk)]

end Ollir.Method

namespace Ollir

/-- The labels of code at an index. -/
theorem labelsAt_positions_cons_instr {pc : Nat} (code : List Item) :
    ((positions (pc + 1) code).filter fun l ↦ l.2 == pc).map Prod.fst = [] := by
  rw [List.map_eq_nil_iff, List.filter_eq_nil_iff]
  intro l hl
  have := (le_of_mem_positions hl).1
  simp only [beq_iff_eq]
  omega

/-- **The listing of a method made from code is that code.** -/
theorem listingFrom_positions {m : Method} {pc : Nat} {code : List Item}
    (h : m.labels = positions pc code) : m.listingFrom pc (instrsOf code) = code := by
  induction code generalizing m pc with
  | nil =>
    simp [instrsOf, Method.listingFrom, Method.labelsAt, h, positions]
  | cons item code ih =>
    cases item with
    | instr i =>
      have hnone : m.labelsAt pc = [] := by
        rw [Method.labelsAt, h]
        exact labelsAt_positions_cons_instr code
      rw [instrsOf_instr, Method.listingFrom, hnone, ih h]
      rfl
    | label name =>
      -- the method without the label has the rest as its listing
      let rest : Method := { m with labels := positions pc code }
      have hrest : rest.listingFrom pc (instrsOf code) = code := ih rfl
      have hhere : m.labelsAt pc = name :: rest.labelsAt pc := by
        simp [Method.labelsAt, h, positions, rest]
      have hlater : ∀ k, pc + 1 ≤ k → m.labelsAt k = rest.labelsAt k := by
        intro k hk
        have hne : pc ≠ k := by omega
        simp [Method.labelsAt, h, positions, rest, hne]
      rw [instrsOf_label]
      conv_rhs => rw [← hrest]
      cases instrsOf code with
      | nil => rw [Method.listingFrom, Method.listingFrom, hhere, List.map_cons]
      | cons i is =>
        rw [Method.listingFrom, Method.listingFrom, hhere, Method.listingFrom_congr is hlater]
        rfl

/-- **A method without code lists what it is extended by.**  A label stands at the number of the
instructions before it, so that neither labels at one index nor labels of one name get mixed up. -/
theorem Method.listing_extend {m : Method} (hinstrs : m.instrs = []) (hlabels : m.labels = [])
    (code : List Item) : (m.extend code).listing = code := by
  rw [Method.extend_eq, hinstrs, hlabels, Method.listing]
  exact listingFrom_positions rfl

theorem Method.listing_assignSlots (m : Method) (className : String) :
    (m.assignSlots className).listing = m.listing := by
  rw [Method.assignSlots]
  split
  · exact Method.listingFrom_congr m.instrs fun _ _ ↦ rfl
  · rfl

theorem Class.getElem?_assignSlots {c : Class} {k : Nat} {m : Method}
    (h : c.methods[k]? = some m) :
    c.assignSlots.methods[k]? = some (m.assignSlots c.name) := by
  rw [Class.assignSlots, List.getElem?_map, h, Option.map_some]

theorem Lowerer.listing_method (l : Lowerer) (n : Names) : (l.method n).1.listing = l.code n := by
  rw [l.method_eq_extend]
  exact Method.listing_extend rfl rfl (l.code n)

end Ollir

namespace Jasmin

open Semantics
open Ollir (Instr VarTable)

variable {e : Emitter} {m : Ollir.Method} {n n' pc : Nat} {code steps : List Step} {i : Instr}

/-! ## Code of listings -/

theorem items_append {a b : List Ollir.Item} (h : e.items (a ++ b) n = .ok (code, n')) :
    ∃ ca cb n₁, e.items a n = .ok (ca, n₁) ∧ e.items b n₁ = .ok (cb, n') ∧ code = ca ++ cb := by
  induction a generalizing n code with
  | nil => exact ⟨[], code, n, rfl, h, rfl⟩
  | cons item a ih =>
    obtain ⟨first, n₁, hfirst, h⟩ := Emit.bind_eq_ok_iff.mp h
    obtain ⟨rest, n₂, hrest, h⟩ := Emit.bind_eq_ok_iff.mp h
    obtain ⟨rfl, rfl⟩ := Emit.pure_eq_ok_iff.mp h
    obtain ⟨ca, cb, n₃, hca, hcb, rfl⟩ := ih hrest
    refine ⟨first ++ ca, cb, n₃, ?_, hcb, (List.append_assoc _ _ _).symm⟩
    exact Emit.bind_eq_ok_iff.mpr ⟨first, n₁, hfirst,
      Emit.bind_eq_ok_iff.mpr ⟨ca, n₃, hca, rfl⟩⟩

theorem items_labels {labels : List String}
    (h : e.items (labels.map .label) n = .ok (code, n')) : code = labels.map .label := by
  induction labels generalizing n code with
  | nil => exact (Emit.pure_eq_ok_iff.mp h).1
  | cons label labels ih =>
    obtain ⟨first, n₁, hfirst, h⟩ := Emit.bind_eq_ok_iff.mp h
    obtain ⟨rest, n₂, hrest, h⟩ := Emit.bind_eq_ok_iff.mp h
    obtain ⟨rfl, rfl⟩ := Emit.pure_eq_ok_iff.mp h
    obtain ⟨rfl, rfl⟩ := Emit.pure_eq_ok_iff.mp hfirst
    rw [ih hrest]
    rfl

/-- The line at which the code of an instruction starts, in a method whose comparisons are numbered
from `n` on. -/
def Emitter.lineOf (e : Emitter) (m : Ollir.Method) (n pc : Nat) : Nat :=
  match e.items (m.before pc) n with
  | .ok (steps, _) => steps.length
  | .error _ => 0

theorem Emitter.lineOf_eq (h : e.items (m.before pc) n = .ok (code, n')) :
    e.lineOf m n pc = code.length := by
  rw [lineOf, h]

theorem spans_self (steps : List Step) : Spans (steps.map Step.line) 0 steps steps.length := by
  have hspan := spans_map_line [] steps
  rwa [List.nil_append, List.length_nil, Nat.zero_add] at hspan

section Code

variable (hsteps : e.items m.listing n = .ok (steps, n'))

include hsteps

/-- The code up to an instruction ends at the line of the instruction. -/
theorem spans_before (pc : Nat) :
    ∃ front n₁, e.items (m.before pc) n = .ok (front, n₁)
      ∧ Spans (steps.map Step.line) 0 front (e.lineOf m n pc) := by
  obtain ⟨rest, hrest⟩ := m.before_append pc
  rw [hrest] at hsteps
  obtain ⟨front, last, n₁, hfront, _, rfl⟩ := items_append hsteps
  obtain ⟨j, hspan, _⟩ := spans_append.mp (spans_self (front ++ last))
  rw [Emitter.lineOf_eq hfront]
  have hj : j = front.length := by rw [hspan.eq_add, Nat.zero_add]
  exact ⟨front, n₁, hfront, hj ▸ hspan⟩

/-- The code of an instruction starts at its line, and after it come the labels of the next. -/
theorem spans_instr (hi : m.instrs[pc]? = some i) :
    ∃ code n₁ n₂ k, e.instr i n₁ = .ok (code, n₂)
      ∧ Spans (steps.map Step.line) (e.lineOf m n pc) code k
      ∧ Spans (steps.map Step.line) k ((m.labelsAt (pc + 1)).map Step.label)
        (e.lineOf m n (pc + 1)) := by
  obtain ⟨front, n₁, hfront, hspan⟩ := spans_before hsteps (pc + 1)
  rw [Ollir.Method.before_succ hi] at hfront
  obtain ⟨before, block, n₂, hbefore, hblock, rfl⟩ := items_append hfront
  obtain ⟨code, n₃, hcode, hblock⟩ := Emit.bind_eq_ok_iff.mp hblock
  obtain ⟨labels, n₄, hlabels, hblock⟩ := Emit.bind_eq_ok_iff.mp hblock
  obtain ⟨rfl, rfl⟩ := Emit.pure_eq_ok_iff.mp hblock
  obtain rfl := items_labels hlabels
  obtain ⟨j, hspan₁, hspan₂⟩ := spans_append.mp hspan
  obtain ⟨k, hspan₂, hspan₃⟩ := spans_append.mp hspan₂
  have hj : j = e.lineOf m n pc := by
    rw [Emitter.lineOf_eq hbefore, hspan₁.eq_add, Nat.zero_add]
  exact ⟨code, n₂, n₃, k, hcode, hj ▸ hspan₂, hspan₃⟩

/-- Labels lead to the lines of the instructions they stand before. -/
theorem layout_of_items (hunique : UniqueLabels (steps.map Step.line))
    (hwithin : ∀ l ∈ m.labels, l.2 ≤ m.instrs.length) :
    Layout m (steps.map Step.line) (e.lineOf m n) := by
  intro label pc htarget
  obtain ⟨hlabel, l, hl, rfl⟩ := Ollir.Method.mem_labelsAt_of_labelTarget? htarget
  obtain ⟨front, hfront⟩ := Ollir.Method.before_eq_append_labels (hwithin l hl)
  obtain ⟨code, n₁, hcode, hspan⟩ := spans_before hsteps l.2
  rw [hfront] at hcode
  obtain ⟨before, labels, n₂, _, hlabels, rfl⟩ := items_append hcode
  obtain rfl := items_labels hlabels
  obtain ⟨first, last, hsplit⟩ := List.append_of_mem hlabel
  rw [hsplit, List.map_append, ← List.append_assoc] at hspan
  obtain ⟨line, _, hspan⟩ := spans_append.mp hspan
  exact ⟨line, label :: last, labelLine?_of_getElem? hunique hspan.1, hspan⟩

end Code

/-! ## Simulation -/

/-- A state of the machine stands for a state of a method of OLLIR: with an empty stack, the
variables in their slots and at the line of the next instruction while the method runs, and with the
same exception or value at its end, where a method of type `void` gives none back. -/
def StatesMatch (e : Emitter) (self : Val) (lineOf : Nat → Nat) (returns : Ollir.Ty) :
    Ollir.State → State → Prop
  | .running pc env s, .running f s' =>
    f.line = lineOf pc ∧ f.stack = [] ∧ e.Represents self env f.locals ∧ s' = s
  | .returned v _ s, .returned v' s' => v' = (if returns = .void then none else v) ∧ s' = s
  | .raised x _ s, .raised x' s' => x' = x ∧ s' = s
  | _, _ => False

variable {c : Context} {env : Env} {s : Shared}

theorem Reaches.statesMatch {lineOf : Nat → Nat} {returns : Ollir.Ty} {w : World}
    {lines : List Line} {t : State} {r : Outcome Ollir.Next} {st' : Ollir.State}
    (h : Reaches w lines t (Corresponds e c.self lineOf returns) r) (env : Env)
    (hst : Ollir.State.after env r = some st') :
    ∃ t', Steps w lines t t' ∧ StatesMatch e c.self lineOf returns st' t' := by
  cases r with
  | ok next s' =>
    obtain ⟨next', hnext, hsteps⟩ := h
    refine ⟨next'.at s', hsteps, ?_⟩
    match next, next' with
    | .goto pc env', .goto f =>
      obtain rfl := Option.some.inj hst
      obtain ⟨hline, hstack, hrep⟩ := hnext
      exact ⟨hline, hstack, hrep, rfl⟩
    | .returned v, .returned v' =>
      obtain rfl := Option.some.inj hst
      exact ⟨hnext, rfl⟩
    | .goto _ _, .returned _ => exact hnext.elim
    | .returned _, .goto _ => exact hnext.elim
  | raised x s' =>
    obtain rfl := Option.some.inj hst
    exact ⟨_, h, rfl, rfl⟩
  | undefined => exact nomatch hst

/-- What a method of OLLIR needs for its assembly to simulate it. -/
structure IsSimulable (e : Emitter) (m : Ollir.Method) : Prop where
  slots : e.HasSlots m.isStatic
  labels : (Ollir.labelsOf m.listing).Nodup
  given : ∀ x ∈ Ollir.labelsOf m.listing, ∀ number, ¬ IsComparisonLabel number x
  within : ∀ l ∈ m.labels, l.2 ≤ m.instrs.length
  regular : ∀ i ∈ m.instrs, i.IsRegular m.returns
  proper : ∀ i ∈ m.instrs, ∀ o ∈ i.operands, o.IsProper m.isStatic

section Simulation

variable (hm : IsSimulable e m) (hsteps : e.items m.listing n = .ok (steps, n'))
  (hpath : c.path = e.unit.classPath)

include hm hsteps hpath

/-- **One step of a method is simulated.** -/
theorem step_simulates {st st' : Ollir.State} {t : State} (hstep : m.step c st = some st')
    (hst : StatesMatch e c.self (e.lineOf m n) m.returns st t) :
    ∃ t', Steps c.world (steps.map Step.line) t t'
      ∧ StatesMatch e c.self (e.lineOf m n) m.returns st' t' := by
  cases st with
  | running pc env s =>
    cases t with
    | running f s' =>
      obtain ⟨hline, hstack, hrep, rfl⟩ := hst
      obtain ⟨line, stack, locals⟩ := f
      obtain rfl : line = e.lineOf m n pc := hline
      obtain rfl : stack = [] := hstack
      cases hi : m.instrs[pc]? with
      | none =>
        rw [Ollir.Method.step, hi] at hstep
        cases hstep
      | some i =>
        rw [Ollir.Method.step_running hi] at hstep
        have hmem := List.mem_of_getElem? hi
        have hunique : UniqueLabels (steps.map Step.line) := by
          rw [UniqueLabels, labelNames_eq]
          exact (emittedLabels_items hm.labels hm.given hsteps).nodup
        obtain ⟨code, n₁, n₂, k, hcode, hspan, hnext⟩ := spans_instr hsteps hi
        exact (runs_instr hm.slots hrep hpath hunique (layout_of_items hsteps hunique hm.within)
          hnext (hm.regular i hmem) (hm.proper i hmem) hcode hspan s').statesMatch env hstep
    | returned _ _ | raised _ _ => exact hst.elim
  | returned _ _ _ | raised _ _ _ => cases hstep

omit hm hpath in
/-- At the start, the machine passes the labels of the first instruction. -/
theorem start_simulates {locals : Nat → Val} (hrep : e.Represents c.self env locals) (s : Shared) :
    ∃ t, Steps c.world (steps.map Step.line) (.running ⟨0, [], locals⟩ s) t
      ∧ StatesMatch e c.self (e.lineOf m n) m.returns (.running 0 env s) t := by
  obtain ⟨front, n₁, hfront, hspan⟩ := spans_before hsteps 0
  rw [Ollir.Method.before_zero] at hfront
  obtain rfl := items_labels hfront
  exact (runs_next hrep hspan s).statesMatch env rfl

/-- A run of a method is simulated. -/
theorem steps_simulate {locals : Nat → Val} (hrep : e.Represents c.self env locals)
    {st : Ollir.State} (hrun : m.Steps c (.running 0 env s) st) :
    ∃ t, Steps c.world (steps.map Step.line) (.running ⟨0, [], locals⟩ s) t
      ∧ StatesMatch e c.self (e.lineOf m n) m.returns st t := by
  induction hrun with
  | refl => exact start_simulates hsteps hrep s
  | tail _ hstep ih =>
    obtain ⟨t, hsteps₁, ht⟩ := ih
    obtain ⟨t', hsteps₂, ht'⟩ := step_simulates hm hsteps hpath hstep ht
    exact ⟨t', hsteps₁.trans hsteps₂, ht'⟩

end Simulation

/-! ## Classes -/

theorem emitMethods_getElem? {unit : Ollir.Class} {fusion : Bool} {ms : List Ollir.Method}
    {jms : List Method} (h : emitMethods unit fusion ms n = .ok (jms, n')) {k : Nat}
    (hm : ms[k]? = some m) :
    ∃ jm n₁ n₂, jms[k]? = some jm ∧ emitMethod unit fusion m n₁ = .ok (jm, n₂) := by
  induction ms generalizing n jms k with
  | nil => exact nomatch hm
  | cons first rest ih =>
    obtain ⟨jm, n₁, hfirst, h⟩ := Emit.bind_eq_ok_iff.mp h
    obtain ⟨jms', n₂, hrest, h⟩ := Emit.bind_eq_ok_iff.mp h
    obtain ⟨rfl, rfl⟩ := Emit.pure_eq_ok_iff.mp h
    cases k with
    | zero =>
      obtain rfl := Option.some.inj hm
      exact ⟨jm, n, n₁, rfl, hfirst⟩
    | succ k => exact ih hrest hm

/-- The lines of a method that was emitted are those of its code, and its stack limit is the largest
count. -/
theorem emitMethod_eq_ok {unit : Ollir.Class} {fusion : Bool} {jm : Method}
    (h : emitMethod unit fusion m n = .ok (jm, n')) :
    ∃ steps, Emitter.items ⟨unit, m.vars, fusion⟩ m.listing n = .ok (steps, n')
      ∧ jm.lines = steps.map Step.line ∧ jm.stackLimit = Step.limit steps := by
  obtain ⟨steps, n₁, hsteps, h⟩ := Emit.bind_eq_ok_iff.mp h
  obtain ⟨rfl, rfl⟩ := Emit.pure_eq_ok_iff.mp h
  exact ⟨steps, hsteps, rfl, rfl⟩

/-- The comparisons of a class are numbered from zero on. -/
theorem emitClass_eq_ok {unit : Ollir.Class} {fusion : Bool} {jc : Class}
    (h : emitClass fusion unit = .ok jc) :
    ∃ n', emitMethods unit fusion unit.methods 0 = .ok (jc.methods, n') := by
  obtain ⟨methods, hmethods, h⟩ := bind_eq_ok_iff.mp h
  obtain rfl := Except.ok.inj h
  obtain ⟨⟨methods', n'⟩, hmethods', hresult⟩ := bind_eq_ok_iff.mp hmethods
  obtain rfl := Except.ok.inj hresult
  exact ⟨n', hmethods'⟩

/-- A method of a class that was emitted. -/
theorem emitClass_getElem? {unit : Ollir.Class} {fusion : Bool} {jc : Class}
    (h : emitClass fusion unit = .ok jc) {k : Nat} (hm : unit.methods[k]? = some m) :
    ∃ jm n n' steps, jc.methods[k]? = some jm
      ∧ Emitter.items ⟨unit, m.vars, fusion⟩ m.listing n = .ok (steps, n')
      ∧ jm.lines = steps.map Step.line := by
  obtain ⟨_, hmethods⟩ := emitClass_eq_ok h
  obtain ⟨jm, n₁, n₂, hjm, hemit⟩ := emitMethods_getElem? hmethods hm
  obtain ⟨steps, hsteps, hlines, _⟩ := emitMethod_eq_ok hemit
  exact ⟨jm, n₁, n₂, steps, hjm, hsteps, hlines⟩

/-- A lowered method with slots is simulated by its assembly. -/
theorem isSimulable_lowered (l : Ollir.Lowerer) (names : Ollir.Names) (unit : Ollir.Class)
    (fusion : Bool) (hm : m = (l.method names).1.assignSlots unit.name)
    (hsize : m.vars.size ≤ UInt16.size)
    (hproper : ∀ i ∈ m.instrs, ∀ o ∈ i.operands, o.IsProper m.isStatic) :
    IsSimulable ⟨unit, m.vars, fusion⟩ m := by
  have hregular := fun i ↦ l.isRegular_method names (i := i)
  obtain ⟨names', hlabels⟩ := l.labelsIn_code names
  have hlisting : m.listing = l.code names := by
    rw [hm, Ollir.Method.listing_assignSlots, l.listing_method]
  rw [l.method_eq_extend, Ollir.Method.extend_eq] at hm hregular
  subst hm
  refine ⟨⟨Ollir.Method.isDense_table unit.name _, hsize, fun hinstance ↦ ⟨.named unit.name, ?_⟩⟩,
    ?_, ?_, ?_, hregular, hproper⟩
  · exact Ollir.Method.get?_receiver_table unit.name hinstance
  · rw [hlisting]
    exact hlabels.1
  · rw [hlisting]
    exact fun x hx ↦ not_isComparisonLabel hlabels hx
  · intro lbl hlbl
    have hle : lbl.2 ≤ 0 + Ollir.codeSize (l.code names) := (Ollir.le_of_mem_positions hlbl).2
    rw [Nat.zero_add] at hle
    exact hle

/-- **Assembly simulates OLLIR.**  Let a lowered class be emitted, with or without fusion, and let
one of its methods have no more names than there are slots, and no operand that is named `this` or,
if the method is static, is the receiver.  The lines of that method, run from an empty stack with
the variables in their slots, get to the first instruction.  Whenever the method takes a step, the
machine, at the line of the instruction with an empty stack, gets to the state that stands for the
one after the step: the line of the next instruction, an empty stack, the new variables in their
slots and the same heap and trace, or the same exception, or the same value given back unless the
method is of type `void`.  So it is for whole runs.  And the text of every line is read as the label
or operation that the machine works with, if names do not hold the characters that end them. -/
theorem assemble_simulates (a : Analysis) (cls : ClassDecl) {fusion : Bool} {jc : Class}
    (hjc : (a.lower cls).assemble fusion = .ok jc) {k : Nat} {m : Ollir.Method}
    (hm : (a.lower cls).assignSlots.methods[k]? = some m) (hsize : m.vars.size ≤ UInt16.size)
    (hproper : ∀ i ∈ m.instrs, ∀ o ∈ i.operands, o.IsProper m.isStatic) :
    let e : Emitter := ⟨(a.lower cls).assignSlots, m.vars, fusion⟩
    ∃ jm n, jc.methods[k]? = some jm
      ∧ (∃ steps n', e.items m.listing n = .ok (steps, n') ∧ jm.lines = steps.map Step.line)
      ∧ (∀ l ∈ jm.lines, l.HasPlainNames → Line.read l.text = some l)
      ∧ ∀ (w : World) (self : Val),
        let c : Context := ⟨w, (a.lower cls).classPath, self⟩
        let stands := StatesMatch e self (e.lineOf m n) m.returns
        (∀ env locals s, e.Represents self env locals →
          ∃ t, Steps w jm.lines (.running ⟨0, [], locals⟩ s) t ∧ stands (.running 0 env s) t)
        ∧ (∀ st st' t, m.step c st = some st' → stands st t →
          ∃ t', Steps w jm.lines t t' ∧ stands st' t')
        ∧ ∀ env locals s st, e.Represents self env locals → m.Steps c (.running 0 env s) st →
          ∃ t, Steps w jm.lines (.running ⟨0, [], locals⟩ s) t ∧ stands st t := by
  intro e
  obtain ⟨jm, n, n', steps, hjm, hsteps, hlines⟩ := emitClass_getElem? hjc hm
  obtain ⟨m₀, hm₀, rfl⟩ := List.mem_map.mp (List.mem_of_getElem? hm)
  obtain ⟨d, _, names, rfl⟩ := Ollir.exists_of_mem_lowerMethods a hm₀
  have hsimulable := isSimulable_lowered (a.lowerer d) names (a.lower cls).assignSlots fusion rfl
    hsize hproper
  refine ⟨jm, n, hjm, ⟨steps, n', hsteps, hlines⟩, fun l _ ↦ Line.read_text, fun w self ↦ ?_⟩
  intro c stands
  rw [hlines]
  exact ⟨fun env locals s hrep ↦ start_simulates (c := c) hsteps hrep s,
    fun st st' t hstep hst ↦ step_simulates (c := c) hsimulable hsteps rfl hstep hst,
    fun env locals s st hrep hrun ↦ steps_simulate (c := c) hsimulable hsteps rfl hrep hrun⟩

/-- The statement for `while (x < 3) x = x + 1; return x;`, run from two. -/
theorem assemble_simulates_loop :
    let x : Expr := .ident "x" {}
    let int : TypeName := { name := "int" }
    let d : MethodDecl :=
      { name := "count", isPublic := true, isStatic := false, returns := int,
        params := [{ name := "x", type := int }], locals := [],
        body := [.loop (.binary .less x (.int 3 {}) {})
          [.assign x (.binary .add x (.int 1 {}) {}) {}] {}, .ret (some x) {}] }
    let cls : ClassDecl := { name := "A", superclass := none, fields := [], methods := [d] }
    ∃ jc jm, ((Analysis.ofClass [] cls).lower cls).assemble true = .ok jc
      ∧ jc.methods[0]? = some jm
      ∧ (∀ l ∈ jm.lines, Line.read l.text = some l)
      ∧ ∀ w, Steps w jm.lines
        (.running ⟨0, [], fun slot ↦ if slot = 0 then .ref 0 else .int 2⟩ default)
        (.returned (some (.int 3)) default) := by
  intro x int d cls
  let y : Ollir.Operand := .var "x" .int32
  let test : Instr := .branch (.binary .less y (.literal 3 .int32) .boolean) "whilebody_0"
  let m : Ollir.Method :=
    { name := "count", isPublic := true, params := [y], returns := .int32,
      instrs := [test, .goto "endwhile_0",
        .assign y .int32 (.binary .add y (.literal 1 .int32) .int32), test, .ret .int32 (some y)],
      labels := [("whilebody_0", 2), ("endwhile_0", 4)],
      vars := ⟨[("this", ⟨.receiver, 0, .named "A"⟩), ("x", ⟨.parameter, 1, .int32⟩)]⟩ }
  have hm : ((Analysis.ofClass [] cls).lower cls).assignSlots.methods[0]? = some m := by
    decide +kernel
  have hplain : (((Analysis.ofClass [] cls).lower cls).assemble true).toOption.map
      (fun jc ↦ decide (∀ jm ∈ jc.methods, ∀ l ∈ jm.lines, l.HasPlainNames)) = some true := by
    decide +kernel
  cases hjc : ((Analysis.ofClass [] cls).lower cls).assemble true with
  | error f =>
    rw [hjc] at hplain
    exact nomatch hplain
  | ok jc =>
    obtain ⟨jm, n, hjm, _, hread, h⟩ := assemble_simulates _ cls hjc hm (by decide) (by decide)
    rw [hjc] at hplain
    have hnames := of_decide_eq_true (Option.some.inj hplain) jm (List.mem_of_getElem? hjm)
    refine ⟨jc, jm, rfl, hjm, fun l hl ↦ hread l hl (hnames l hl), fun w ↦ ?_⟩
    let c : Context := ⟨w, ((Analysis.ofClass [] cls).lower cls).classPath, .ref 0⟩
    let env : Env := fun _ ↦ .int 2
    have hrun : m.Steps c (.running 0 env default)
        (.returned (some (.int 3)) (env.set "x" (.int 3)) default) :=
      .head rfl (.head rfl (.head rfl (.head rfl .refl)))
    have hrep : Emitter.Represents ⟨((Analysis.ofClass [] cls).lower cls).assignSlots, m.vars, true⟩
        (.ref 0) env fun slot ↦ if slot = 0 then .ref 0 else .int 2 := by
      intro z b hb
      rcases List.mem_cons.mp (VarTable.mem_of_get? hb) with hentry | hentry
      · obtain ⟨_, rfl⟩ := Prod.mk.inj hentry
        rfl
      · obtain ⟨_, rfl⟩ := Prod.mk.inj (List.mem_singleton.mp hentry)
        rfl
    obtain ⟨t, hsteps, ht⟩ := (h w (.ref 0)).2.2 env _ default _ hrep hrun
    match t with
    | .returned v s =>
      obtain ⟨rfl, rfl⟩ := ht
      exact hsteps
    | .running _ _ => exact ht.elim
    | .raised _ _ => exact ht.elim

end Jasmin

end Jmm
