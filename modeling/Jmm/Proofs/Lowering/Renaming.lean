import Jmm.Proofs.Lowering.Capture

/-!
# Renaming generated names

The names that lowering makes up depend on the counters it starts with, and on nothing else.  So if
a method is lowered twice, from different counters, the results are the same up to a renaming, which
takes the names that were drawn in one run to those drawn in the other, counter by counter and in
order (`Lowerer.rename_method`).

* `Renaming` acts on operands, instructions, code and methods.  Variables and labels are renamed
  apart from each other, since a label never stands for a variable.
* `Renaming.shift` replaces the names that were drawn between two states of the counters.
* `Shift.Mirrors` relates two computations that draw names: if they start with counters that are as
  far from the start of the two runs, the second gives the renamed result of the first.  There is
  one lemma for each function of lowering.

The variables of the source have to keep their names, so none of them may be a generated name.
-/

set_option autoImplicit false

namespace Jmm.Ollir

/-- A renaming of variables and labels. -/
structure Renaming where
  var : String → String
  label : String → String

/-- The part of a renaming that names of a kind are renamed by. -/
def Renaming.on (ρ : Renaming) (k : NameKind) : String → String :=
  bif k.isLabel then ρ.label else ρ.var

/-! ## Renaming code -/

/-- An operand with its variables renamed. -/
def Operand.rename (ρ : Renaming) : Operand → Operand
  | literal value type => literal value type
  | var name type => var (ρ.var name) type
  | element name index type => element (ρ.var name) (index.rename ρ) type
  | receiver className => receiver className
  | classRef name => classRef name

/-- A call with its variables renamed. -/
def Call.rename (ρ : Renaming) (c : Call) : Call :=
  { c with caller := c.caller.rename ρ, args := c.args.map (Operand.rename ρ) }

/-- An instruction with its variables and labels renamed. -/
def Instr.rename (ρ : Renaming) : Instr → Instr
  | assign target type value => assign (target.rename ρ) type (value.rename ρ)
  | single o => single (o.rename ρ)
  | binary op left right type => binary op (left.rename ρ) (right.rename ρ) type
  | not o type => not (o.rename ρ) type
  | call c => call (c.rename ρ)
  | getField object field type => getField (object.rename ρ) field type
  | putField object field type value => putField (object.rename ρ) field type (value.rename ρ)
  | branch test label => branch (test.rename ρ) (ρ.label label)
  | goto label => goto (ρ.label label)
  | ret type value => ret type (value.map (Operand.rename ρ))

/-- A label or instruction renamed. -/
def Item.rename (ρ : Renaming) : Item → Item
  | label name => label (ρ.label name)
  | instr i => instr (i.rename ρ)

/-- A lowered expression renamed. -/
def Lowered.rename (ρ : Renaming) (e : Lowered) : Lowered :=
  ⟨e.code.map (Item.rename ρ), e.value.rename ρ⟩

/-- A method with its variables and labels renamed. -/
def Method.rename (ρ : Renaming) (m : Method) : Method :=
  { m with params := m.params.map (Operand.rename ρ)
           instrs := m.instrs.map (Instr.rename ρ)
           labels := m.labels.map fun l ↦ (ρ.label l.1, l.2)
           vars := ⟨m.vars.entries.map fun e ↦ (ρ.var e.1, e.2)⟩ }

section Rename

variable (ρ : Renaming)

@[simp] theorem Operand.type_rename (o : Operand) : (o.rename ρ).type = o.type := by
  cases o <;> rfl

/-- An operand whose variables keep their names stays as it is. -/
theorem Operand.rename_of_reads {o : Operand} (h : ∀ x ∈ o.reads, ρ.var x = x) :
    o.rename ρ = o := by
  induction o with
  | var name type => rw [rename, h name List.mem_cons_self]
  | element name index type ih =>
    obtain ⟨hname, hindex⟩ := List.forall_mem_cons.mp h
    rw [rename, hname, ih hindex]
  | _ => rfl

@[simp] theorem Instr.isCall_rename (i : Instr) : (i.rename ρ).isCall = i.isCall := by
  cases i <;> rfl

theorem Method.rename_add (m : Method) (i : Item) :
    (m.add i).rename ρ = (m.rename ρ).add (i.rename ρ) := by
  cases i <;> simp [add, push, placeLabel, rename, Item.rename]

theorem Method.rename_extend (m : Method) (code : List Item) :
    (m.extend code).rename ρ = (m.rename ρ).extend (code.map (Item.rename ρ)) := by
  induction code generalizing m with
  | nil => rfl
  | cons i code ih =>
    rw [extend, List.foldl_cons, ← extend, ih, rename_add]
    rfl

end Rename

/-! ## Replacing the names that were drawn -/

/-- The names of the given kinds that are drawn between two states of the counters, each with the
name that is drawn in its place from another state on. -/
def Names.replacements (kinds : List NameKind) (n n₁ n' : Names) : List (String × String) :=
  kinds.flatMap fun k ↦ (List.range (n₁.count k - n.count k)).map fun i ↦
    (k.name (n.count k + i), k.name (n'.count k + i))

/-- The renaming that replaces the names drawn between two states of the counters, in order and kind
by kind, by those that are drawn from another state on. -/
def Renaming.shift (n n₁ n' : Names) : Renaming where
  var x := ((Names.replacements (NameKind.all.filter (!·.isLabel)) n n₁ n').lookup x).getD x
  label x := ((Names.replacements (NameKind.all.filter (·.isLabel)) n n₁ n').lookup x).getD x

section Replacements

variable {kinds : List NameKind} {n n₁ n' : Names} {k : NameKind} {i : Nat} {x y : String}

theorem Names.mem_replacements : (x, y) ∈ replacements kinds n n₁ n' ↔
    ∃ k ∈ kinds, ∃ i, n.count k + i < n₁.count k ∧ x = k.name (n.count k + i)
      ∧ y = k.name (n'.count k + i) := by
  simp only [replacements, List.mem_flatMap, List.mem_map, List.mem_range, Prod.mk.injEq]
  grind

/-- A name that was drawn is replaced by the one drawn in its place. -/
theorem Names.lookup_replacements (n' : Names) (hk : k ∈ kinds)
    (hi : n.count k + i < n₁.count k) :
    (replacements kinds n n₁ n').lookup (k.name (n.count k + i))
      = some (k.name (n'.count k + i)) := by
  have hmem : (k.name (n.count k + i), k.name (n'.count k + i)) ∈ replacements kinds n n₁ n' :=
    mem_replacements.mpr ⟨k, hk, i, hi, rfl, rfl⟩
  have hsome : ((replacements kinds n n₁ n').lookup (k.name (n.count k + i))).isSome = true :=
    List.lookup_isSome_iff.mpr ⟨_, hmem, beq_self_eq_true _⟩
  obtain ⟨y, hy⟩ := Option.isSome_iff_exists.mp hsome
  obtain ⟨before, after, heq, _⟩ := List.lookup_eq_some_iff.mp hy
  have hmem' : (k.name (n.count k + i), y) ∈ replacements kinds n n₁ n' := by
    rw [heq]
    exact List.mem_append_right _ List.mem_cons_self
  obtain ⟨j, _, i', _, hname, rfl⟩ := mem_replacements.mp hmem'
  obtain ⟨rfl, hcount⟩ := NameKind.name_inj hname
  obtain rfl : i = i' := by omega
  exact hy

theorem mem_all (k : NameKind) : k ∈ NameKind.all := by cases k <;> decide

theorem Renaming.shift_name (hlow : n.count k ≤ i) (hhigh : i < n₁.count k) :
    (shift n n₁ n').on k (k.name i) = k.name (n'.count k + (i - n.count k)) := by
  obtain ⟨d, rfl⟩ := Nat.exists_eq_add_of_le hlow
  rw [Nat.add_sub_cancel_left, on]
  cases hk : k.isLabel with
  | false =>
    have hmem : k ∈ NameKind.all.filter (!·.isLabel) :=
      List.mem_filter.mpr ⟨mem_all k, by simp [hk]⟩
    exact congrArg (Option.getD · _) (Names.lookup_replacements n' hmem hhigh)
  | true =>
    have hmem : k ∈ NameKind.all.filter (·.isLabel) := List.mem_filter.mpr ⟨mem_all k, hk⟩
    exact congrArg (Option.getD · _) (Names.lookup_replacements n' hmem hhigh)

/-- A variable that is not generated keeps its name. -/
theorem Renaming.shift_var (h : ¬ IsGenerated x) : (shift n n₁ n').var x = x := by
  have hlookup : (Names.replacements (NameKind.all.filter (!·.isLabel)) n n₁ n').lookup x
      = none := by
    refine List.lookup_eq_none_iff.mpr fun p hp ↦ ?_
    obtain ⟨k, hk, i, _, hname, _⟩ := Names.mem_replacements.mp hp
    have hlabel : k.isLabel = false := by simpa using (List.mem_filter.mp hk).2
    refine bne_iff_ne.mpr fun hx ↦ h ⟨k, n.count k + i, hlabel, hx.trans hname⟩
  exact congrArg (Option.getD · x) hlookup

end Replacements

/-! ## Two runs -/

/-- Two runs that start with different counters, and a renaming of what the first one draws until
its counters stop. -/
structure Shift where
  ρ : Renaming
  start : Names
  start' : Names
  stop : Names
  renames : ∀ k i, start.count k ≤ i → i < stop.count k →
    ρ.on k (k.name i) = k.name (start'.count k + (i - start.count k))

namespace Shift

variable (s : Shift)

/-- The counters of the two runs are as far from where they started. -/
def Parallel (n n' : Names) : Prop :=
  ∀ k, s.start.count k ≤ n.count k ∧ n'.count k + s.start.count k = n.count k + s.start'.count k

/-- The second computation gives what the first one does, renamed, from parallel counters on up to
parallel counters. -/
structure Mirrors {α : Type} (act : α → α) (x x' : Draw α) : Prop where
  le : ∀ n, n ≤ (x n).2
  renames : ∀ n n', s.Parallel n n' → (x n).2 ≤ s.stop →
    (x' n').1 = act (x n).1 ∧ s.Parallel (x n).2 (x' n').2

variable {s} {α β : Type}

theorem Mirrors.pure {act : α → α} {a a' : α} (h : a' = act a) :
    s.Mirrors act (Pure.pure a) (Pure.pure a') :=
  ⟨le_refl, fun _ _ hn _ ↦ ⟨h, hn⟩⟩

theorem Mirrors.bind {act : α → α} {act' : β → β} {x x' : Draw α} {f f' : α → Draw β}
    (hx : s.Mirrors act x x') (hf : ∀ a, s.Mirrors act' (f a) (f' (act a))) :
    s.Mirrors act' (x >>= f) (x' >>= f') := by
  refine ⟨fun n ↦ (hx.le n).trans ((hf _).le _), fun n n' hn hstop ↦ ?_⟩
  obtain ⟨hvalue, hn₁⟩ := hx.renames n n' hn (((hf _).le _).trans hstop)
  rw [Draw.bind_apply, Draw.bind_apply, hvalue]
  exact (hf _).renames _ _ hn₁ hstop

theorem mirrors_draw (k : NameKind) : s.Mirrors (s.ρ.on k) (draw k) (draw k) := by
  refine ⟨fun n ↦ n.le_bump k, fun n n' hn hstop ↦ ⟨?_, fun j ↦ ?_⟩⟩
  · obtain ⟨hlow, hsame⟩ := hn k
    have hhigh : n.count k < s.stop.count k := by
      have hbump := hstop k
      rw [draw_apply, Names.count_bump, if_pos rfl] at hbump
      omega
    have hcount : n'.count k = s.start'.count k + (n.count k - s.start.count k) := by omega
    rw [draw_apply, draw_apply, s.renames k _ hlow hhigh, hcount]
  · obtain ⟨hlow, hsame⟩ := hn j
    rw [draw_apply, draw_apply, Names.count_bump, Names.count_bump]
    split
    · subst j
      omega
    · omega

/-! ## The functions expressions are lowered with -/

/-- Code and an operand renamed. -/
def renameOperand (s : Shift) (p : List Item × Operand) : List Item × Operand :=
  (p.1.map (Item.rename s.ρ), p.2.rename s.ρ)

/-- Code and a typed variable renamed. -/
def renameVar (s : Shift) (p : List Item × String × Ty) : List Item × String × Ty :=
  (p.1.map (Item.rename s.ρ), s.ρ.var p.2.1, p.2.2)

/-- Code and operands renamed. -/
def renameOperands (s : Shift) (p : List Item × List Operand) : List Item × List Operand :=
  (p.1.map (Item.rename s.ρ), p.2.map (Operand.rename s.ρ))

theorem mirrors_materialize (value : Instr) :
    s.Mirrors s.renameOperand (materialize value) (materialize (value.rename s.ρ)) := by
  have hstored : s.Mirrors s.renameOperand
      (draw .temp >>= fun temp ↦ Pure.pure
        ([assignVar temp value.resultType value], Operand.var temp value.resultType))
      (draw .temp >>= fun temp ↦ Pure.pure
        ([assignVar temp value.resultType (value.rename s.ρ)],
          Operand.var temp value.resultType)) :=
    (mirrors_draw .temp).bind fun temp ↦ .pure rfl
  cases value with
  | single o => exact .pure rfl
  | _ => exact hstored

theorem mirrors_asOperand {x x' : Draw Lowered} (h : s.Mirrors (Lowered.rename s.ρ) x x') :
    s.Mirrors s.renameOperand (asOperand x) (asOperand x') := by
  refine h.bind fun e ↦ (mirrors_materialize e.value).bind fun p ↦ .pure ?_
  simp [renameOperand, Lowered.rename]

theorem mirrors_asVar {x x' : Draw Lowered} (h : s.Mirrors (Lowered.rename s.ρ) x x') :
    s.Mirrors s.renameVar (asVar x) (asVar x') := by
  refine (mirrors_asOperand h).bind ?_
  rintro ⟨code, o⟩
  have hstored : s.Mirrors s.renameVar
      (draw .temp >>= fun temp ↦ Pure.pure
        (code ++ [assignVar temp o.type (.single o)], temp, o.type))
      (draw .temp >>= fun temp ↦ Pure.pure
        (code.map (Item.rename s.ρ) ++ [assignVar temp (o.rename s.ρ).type
          (.single (o.rename s.ρ))], temp, (o.rename s.ρ).type)) := by
    refine (mirrors_draw .temp).bind fun temp ↦ .pure ?_
    simp [renameVar, assignVar, Item.rename, Instr.rename, Operand.rename]
    rfl
  cases o with
  | var name type => exact .pure rfl
  | _ => exact hstored

theorem mirrors_stored (code : List Item) (value : Instr) :
    s.Mirrors (Lowered.rename s.ρ) (stored code value)
      (stored (code.map (Item.rename s.ρ)) (value.rename s.ρ)) := by
  refine (mirrors_materialize value).bind fun p ↦ .pure ?_
  simp [Lowered.rename, Instr.rename]

theorem mirrors_shortCircuit (left right : Lowered) (type : Ty) (isOr : Bool) :
    s.Mirrors (Lowered.rename s.ρ) (shortCircuit left right type isOr)
      (shortCircuit (left.rename s.ρ) (right.rename s.ρ) type isOr) := by
  cases isOr with
  | true =>
    simp only [shortCircuit, if_true]
    refine (mirrors_draw .trueLabel).bind fun t ↦ (mirrors_draw .endLabel).bind fun e ↦
      (mirrors_draw .temp).bind fun r ↦ .pure ?_
    simp [Lowered.rename, Item.rename, Instr.rename, assignVar, Operand.rename, Renaming.on,
      NameKind.isLabel, Operand.bool]
  | false =>
    simp only [shortCircuit, Bool.false_eq_true, if_false]
    refine (mirrors_draw .trueLabel).bind fun t ↦ (mirrors_draw .endLabel).bind fun e ↦
      (mirrors_draw .temp).bind fun r ↦ .pure ?_
    simp [Lowered.rename, Item.rename, Instr.rename, assignVar, Operand.rename, Renaming.on,
      NameKind.isLabel, Operand.bool]

theorem mirrors_operation (op : BinOp) (left right : Lowered) (type : Ty) (inline : Bool) :
    s.Mirrors (Lowered.rename s.ρ) (operation op left right type inline)
      (operation op (left.rename s.ρ) (right.rename s.ρ) type inline) := by
  refine (mirrors_materialize left.value).bind ?_
  rintro ⟨leftCode, x⟩
  refine (mirrors_materialize right.value).bind ?_
  rintro ⟨rightCode, y⟩
  have hcode : (left.code ++ leftCode ++ right.code ++ rightCode).map (Item.rename s.ρ)
      = (left.rename s.ρ).code ++ leftCode.map (Item.rename s.ρ) ++ (right.rename s.ρ).code
        ++ rightCode.map (Item.rename s.ρ) := by
    simp [Lowered.rename]
  cases inline with
  | true => exact .pure (congrArg (Lowered.mk · _) hcode.symm)
  | false =>
    have hstored := mirrors_stored (s := s) (left.code ++ leftCode ++ right.code ++ rightCode)
      (.binary op x y type)
    rw [hcode] at hstored
    exact hstored

theorem mirrors_packed (length : Nat) (element : Ty) {fill fill' : String → Draw (List Item)}
    (h : ∀ name, s.Mirrors (List.map (Item.rename s.ρ)) (fill name) (fill' (s.ρ.var name))) :
    s.Mirrors (Lowered.rename s.ρ) (packed length element fill) (packed length element fill') := by
  by_cases hlength : length = 0
  · simp only [packed, hlength, if_true]
    exact (mirrors_draw .temp).bind fun temp ↦ .pure rfl
  · simp only [packed, hlength, if_false]
    refine (mirrors_draw .temp).bind fun temp ↦ (mirrors_draw .varargsArray).bind fun name ↦
      (h name).bind fun stores ↦ .pure ?_
    simp [Lowered.rename, Item.rename, Instr.rename, assignVar, Operand.rename, Renaming.on,
      NameKind.isLabel, Call.rename, Call.newArray, Operand.int]

end Shift

/-! ## Expressions -/

namespace Lowerer

open Shift

variable {s : Shift} (l : Lowerer)

/-- A variable that the renaming leaves alone is lowered alike in both runs. -/
theorem mirrors_ident {name : String} {span : Span}
    (h : ∀ x ∈ l.site.vars (.ident name span), s.ρ.var x = x) :
    s.Mirrors (Lowered.rename s.ρ) (l.ident name) (l.ident name) := by
  rw [ident]
  by_cases himport : l.table.isImport name = true
  · rw [if_pos himport]
    exact .pure rfl
  · rw [if_neg himport]
    by_cases hfield : l.scopes.isField name l.decl.name = true
    · simp only [hfield, if_true]
      exact mirrors_stored [] _
    · have hname : s.ρ.var name = name := h name (by simp [Site.vars, himport, hfield])
      simp only [hfield]
      refine .pure ?_
      simp [Lowered.rename, Lowered.ofOperand, Instr.rename, Operand.rename, hname]

section Lists

variable {es : List Expr}
  (ih : ∀ e ∈ es, ∀ use, s.Mirrors (Lowered.rename s.ρ) (l.expr e use) (l.expr e use))

include ih

theorem mirrors_stores (array : String) (element : Ty) (position : Nat) :
    s.Mirrors (List.map (Item.rename s.ρ)) (l.stores array element position es)
      (l.stores (s.ρ.var array) element position es) := by
  induction es generalizing position with
  | nil => exact .pure rfl
  | cons e es ihs =>
    obtain ⟨hfirst, hrest⟩ := List.forall_mem_cons.mp ih
    rw [stores, stores]
    refine (mirrors_asOperand (hfirst _)).bind ?_
    rintro ⟨code, o⟩
    refine (ihs hrest (position + 1)).bind fun rest ↦ .pure ?_
    simp [Item.rename, Instr.rename, Operand.rename, Operand.int]

theorem mirrors_args (formals : List (Ty × Bool)) (position : Nat) :
    s.Mirrors s.renameOperands (l.args formals position es) (l.args formals position es) := by
  induction es generalizing position with
  | nil => exact .pure rfl
  | cons e es ihs =>
    obtain ⟨hfirst, hrest⟩ := List.forall_mem_cons.mp ih
    rw [args]
    refine (mirrors_asOperand (hfirst _)).bind ?_
    rintro ⟨code, o⟩
    refine (ihs hrest (position + 1)).bind ?_
    rintro ⟨rest, os⟩
    refine .pure ?_
    simp [renameOperands]

theorem mirrors_callArgs (formals : List (Ty × Bool)) :
    s.Mirrors s.renameOperands (l.callArgs formals es) (l.callArgs formals es) := by
  rw [callArgs]
  cases l.packedType? formals es with
  | none => exact l.mirrors_args ih formals 0
  | some element =>
    refine (mirrors_asOperand (mirrors_packed es.length element fun name ↦
      l.mirrors_stores ih name element 0)).bind ?_
    rintro ⟨code, o⟩
    exact .pure rfl

end Lists

/-- A call is lowered in three steps: its receiver, its arguments and the call itself. -/
theorem expr_call_bind (receiver : Expr) (method : String) (args : List Expr) (span : Span)
    (use : Use) :
    l.expr (.call receiver method args span) use
      = asOperand (l.expr receiver .operand) >>= fun p ↦
          l.callArgs (l.formals receiver method) args >>= fun q ↦
            l.finishCall (.call receiver method args span) (l.site.namesImport receiver)
              (p.1 ++ q.1) p.2 method q.2 use := by
  funext n
  rw [expr_call]
  rfl

theorem mirrors_finishCall (e : Expr) (onImport : Bool) (code : List Item) (caller : Operand)
    (method : String) (args : List Operand) (use : Use) :
    s.Mirrors (Lowered.rename s.ρ) (l.finishCall e onImport code caller method args use)
      (l.finishCall e onImport (code.map (Item.rename s.ρ)) (caller.rename s.ρ) method
        (args.map (Operand.rename s.ρ)) use) := by
  simp only [finishCall]
  by_cases huse : use = .statement
  · rw [if_pos huse, if_pos huse]
    refine .pure ?_
    cases onImport <;> rfl
  · rw [if_neg huse, if_neg huse]
    exact mirrors_stored code _

/-- **Expressions are lowered alike up to renaming**, if their variables keep their names. -/
theorem mirrors_expr (e : Expr) (h : ∀ x ∈ l.site.vars e, s.ρ.var x = x) (use : Use) :
    s.Mirrors (Lowered.rename s.ρ) (l.expr e use) (l.expr e use) := by
  induction e generalizing use with
  | int | bool | self => exact .pure rfl
  | newObject className span =>
    rw [expr]
    refine (mirrors_materialize (.call (Call.newObject className))).bind ?_
    rintro ⟨code, object⟩
    refine .pure ?_
    simp [Lowered.rename, Item.rename, Instr.rename, Call.rename, Call.construct]
  | ident name span => exact l.mirrors_ident h
  | paren inner span ih => exact ih h use.inParens
  | arrayLit elements span ih =>
    rw [expr]
    refine mirrors_packed _ _ fun name ↦ l.mirrors_stores (fun e he ↦ ?_) name _ 0
    exact ih e he fun x hx ↦ h x (Site.vars_subset_varsAll he hx)
  | not operand span ih =>
    rw [expr]
    refine (mirrors_asOperand (ih h _)).bind ?_
    rintro ⟨code, o⟩
    exact .pure rfl
  | index array position span iha ihp =>
    obtain ⟨harray, hposition⟩ := List.forall_mem_append.mp h
    rw [expr]
    refine (mirrors_asVar (iha harray _)).bind ?_
    rintro ⟨arrayCode, name, type⟩
    refine (mirrors_asOperand (ihp hposition _)).bind ?_
    rintro ⟨positionCode, index⟩
    have hstored : s.Mirrors (Lowered.rename s.ρ)
        (draw .temp >>= fun temp ↦ pure (Lowered.mk (arrayCode ++ positionCode
          ++ [assignVar temp type.elementOrInt (.single (.element name index type.elementOrInt))])
          (.single (.var temp type.elementOrInt))))
        (draw .temp >>= fun temp ↦ pure (Lowered.mk (arrayCode.map (Item.rename s.ρ)
          ++ positionCode.map (Item.rename s.ρ) ++ [assignVar temp type.elementOrInt
            (.single (.element (s.ρ.var name) (index.rename s.ρ) type.elementOrInt))])
          (.single (.var temp type.elementOrInt)))) := by
      refine (mirrors_draw .temp).bind fun temp ↦ .pure ?_
      simp [Lowered.rename, Item.rename, Instr.rename, assignVar, Operand.rename, Renaming.on,
        NameKind.isLabel]
    cases use with
    | assign t =>
      refine .pure ?_
      simp [Lowered.rename, Instr.rename, Operand.rename]
    | _ => exact hstored
  | binary op left right span ihl ihr =>
    obtain ⟨hleft, hright⟩ := List.forall_mem_append.mp h
    rw [expr]
    refine (ihl hleft _).bind fun a ↦ (ihr hright _).bind fun b ↦ ?_
    cases op with
    | and => exact mirrors_shortCircuit a b _ false
    | or => exact mirrors_shortCircuit a b _ true
    | _ => exact mirrors_operation _ a b _ _
  | call receiver method args span ihr iha =>
    obtain ⟨hreceiver, hargs⟩ := List.forall_mem_append.mp h
    have hlist : ∀ e ∈ args, ∀ use, s.Mirrors (Lowered.rename s.ρ) (l.expr e use) (l.expr e use) :=
      fun e he ↦ iha e he fun x hx ↦ hargs x (Site.vars_subset_varsAll he hx)
    rw [expr_call_bind]
    refine (mirrors_asOperand (ihr hreceiver _)).bind fun p ↦
      (l.mirrors_callArgs hlist (l.formals receiver method)).bind fun q ↦ ?_
    have hcall := l.mirrors_finishCall (s := s) (.call receiver method args span)
      (l.site.namesImport receiver) (p.1 ++ q.1) p.2 method q.2 use
    rw [List.map_append] at hcall
    exact hcall
  | newArray element size span ih =>
    rw [expr]
    refine (mirrors_asOperand (ih h _)).bind ?_
    rintro ⟨code, o⟩
    exact .pure rfl
  | length array span ih =>
    rw [expr]
    refine (mirrors_asVar (ih h _)).bind ?_
    rintro ⟨code, name, type⟩
    exact mirrors_stored code _

/-! ## Statements -/

theorem mirrors_assign {target value : Expr} {span : Span}
    (htargets : ∀ x ∈ l.targets (.assign target value span), s.ρ.var x = x)
    (hexprs : ∀ e ∈ [target, value], ∀ x ∈ l.site.vars e, s.ρ.var x = x) :
    s.Mirrors (List.map (Item.rename s.ρ)) (l.assign target value) (l.assign target value) := by
  have hvalue := l.mirrors_expr value (hexprs value (by simp))
  cases target with
  | ident name nameSpan =>
    rw [assign]
    by_cases hfield : l.scopes.isField name l.decl.name = true
    · simp only [hfield, if_true]
      refine (mirrors_asOperand (hvalue _)).bind ?_
      rintro ⟨code, o⟩
      refine .pure ?_
      simp [Item.rename, Instr.rename, renameOperand, receiver, Operand.rename]
    · have hname : s.ρ.var name = name := htargets name (by simp [targets, hfield])
      simp only [hfield]
      refine (hvalue _).bind fun v ↦ .pure ?_
      simp [Lowered.rename, Item.rename, Instr.rename, assignVar, Operand.rename, hname]
  | index array position indexSpan =>
    obtain ⟨harray, hposition⟩ := List.forall_mem_append.mp
      (hexprs (.index array position indexSpan) List.mem_cons_self)
    rw [assign]
    refine (mirrors_asVar (l.mirrors_expr array harray _)).bind ?_
    rintro ⟨arrayCode, name, type⟩
    refine (mirrors_asOperand (l.mirrors_expr position hposition _)).bind ?_
    rintro ⟨positionCode, index⟩
    refine (hvalue _).bind fun v ↦ .pure ?_
    simp [Lowered.rename, Item.rename, Instr.rename, Operand.rename]
  | _ => exact (hvalue _).bind fun v ↦ .pure rfl

theorem mirrors_ret {value : Option Expr}
    (h : ∀ e ∈ value.toList, ∀ x ∈ l.site.vars e, s.ρ.var x = x) :
    s.Mirrors (List.map (Item.rename s.ρ)) (l.ret value) (l.ret value) := by
  cases value with
  | none => exact .pure rfl
  | some e =>
    rw [ret]
    refine (mirrors_asOperand (l.mirrors_expr e (h e List.mem_cons_self) _)).bind ?_
    rintro ⟨code, o⟩
    refine .pure ?_
    simp [Item.rename, Instr.rename]

theorem mirrors_stmts_of_forall {sts : List Stmt}
    (ih : ∀ st ∈ sts, (∀ x ∈ l.targets st, s.ρ.var x = x) →
      (∀ e ∈ st.exprs, ∀ x ∈ l.site.vars e, s.ρ.var x = x) →
      s.Mirrors (List.map (Item.rename s.ρ)) (l.stmt st) (l.stmt st))
    (htargets : ∀ x ∈ l.targetsAll sts, s.ρ.var x = x)
    (hexprs : ∀ e ∈ Stmt.exprsAll sts, ∀ x ∈ l.site.vars e, s.ρ.var x = x) :
    s.Mirrors (List.map (Item.rename s.ρ)) (l.stmts sts) (l.stmts sts) := by
  induction sts with
  | nil => exact .pure rfl
  | cons st sts ihs =>
    obtain ⟨hfirst, hrest⟩ := List.forall_mem_cons.mp ih
    obtain ⟨ht, hts⟩ := List.forall_mem_append.mp htargets
    obtain ⟨he, hes⟩ := List.forall_mem_append.mp hexprs
    rw [stmts]
    refine (hfirst ht he).bind fun code ↦ (ihs hrest hts hes).bind fun rest ↦ .pure ?_
    rw [List.map_append]

/-- Statements are lowered alike up to renaming, if their variables keep their names. -/
theorem mirrors_stmt (st : Stmt) (htargets : ∀ x ∈ l.targets st, s.ρ.var x = x)
    (hexprs : ∀ e ∈ st.exprs, ∀ x ∈ l.site.vars e, s.ρ.var x = x) :
    s.Mirrors (List.map (Item.rename s.ρ)) (l.stmt st) (l.stmt st) := by
  induction st with
  | assign target value span => exact l.mirrors_assign htargets hexprs
  | expr e span =>
    rw [stmt, exprStmt]
    refine (l.mirrors_expr e (hexprs e List.mem_cons_self) _).bind fun v ↦ .pure ?_
    show (if (v.value.rename s.ρ).isCall then _ else _) = _
    rw [Instr.isCall_rename]
    split
    · simp [Lowered.rename, Item.rename]
    · rfl
  | ret value span => exact l.mirrors_ret hexprs
  | cond test thenBranch elseBranch span iht ihe =>
    obtain ⟨hte, htt⟩ := List.forall_mem_append.mp htargets
    obtain ⟨htest, hbranches⟩ := List.forall_mem_cons.mp hexprs
    obtain ⟨het, hee⟩ := List.forall_mem_append.mp hbranches
    rw [stmt]
    refine (mirrors_draw .ifBody).bind fun bodyLabel ↦ (mirrors_draw .endIf).bind fun endLabel ↦
      (l.mirrors_expr test htest _).bind fun c ↦
      (l.mirrors_stmts_of_forall ihe hte hee).bind fun onFalse ↦
      (l.mirrors_stmts_of_forall iht htt het).bind fun onTrue ↦ .pure ?_
    simp [Lowered.rename, Item.rename, Instr.rename, Renaming.on, NameKind.isLabel]
  | loop test body span ih =>
    obtain ⟨htest, hbody⟩ := List.forall_mem_cons.mp hexprs
    rw [stmt]
    refine (l.mirrors_expr test htest _).bind fun c ↦
      (mirrors_draw .whileBody).bind fun bodyLabel ↦ (mirrors_draw .endWhile).bind fun endLabel ↦
      (l.mirrors_stmts_of_forall ih htargets hbody).bind fun code ↦ .pure ?_
    simp [Lowered.rename, Item.rename, Instr.rename, Renaming.on, NameKind.isLabel]

/-! ## Methods -/

/-- The variables of a method: its parameters, the names that its statements assign to, and those in
its expressions that mean neither an import nor a field. -/
def varNames : List String :=
  l.params.flatMap Operand.reads ++ l.targetsAll l.decl.body
    ++ (Stmt.exprsAll l.decl.body).flatMap l.site.vars

theorem rename_start (h : ∀ x ∈ l.params.flatMap Operand.reads, s.ρ.var x = x) :
    l.start.rename s.ρ = l.start := by
  have hparams : l.params.map (Operand.rename s.ρ) = l.params := by
    refine (List.map_congr_left fun o ho ↦ ?_).trans (List.map_id _)
    exact Operand.rename_of_reads s.ρ fun x hx ↦ h x (List.mem_flatMap.mpr ⟨o, ho, hx⟩)
  rw [Method.rename, start, hparams]
  rfl

theorem mirrors_method (h : ∀ x ∈ l.varNames, s.ρ.var x = x) :
    s.Mirrors (Method.rename s.ρ) l.method l.method := by
  obtain ⟨h, hvars⟩ := List.forall_mem_append.mp h
  obtain ⟨hparams, htargets⟩ := List.forall_mem_append.mp h
  have hexprs : ∀ e ∈ Stmt.exprsAll l.decl.body, ∀ x ∈ l.site.vars e, s.ρ.var x = x :=
    fun e he x hx ↦ hvars x (List.mem_flatMap.mpr ⟨e, he, hx⟩)
  rw [method]
  refine (l.mirrors_stmts_of_forall (fun st _ ↦ l.mirrors_stmt st) htargets hexprs).bind
    fun code ↦ .pure ?_
  have hextend : (l.start.extend code).rename s.ρ
      = l.start.extend (code.map (Item.rename s.ρ)) := by
    rw [Method.rename_extend, l.rename_start hparams]
  cases l.decl.hasReturn with
  | true => exact hextend.symm
  | false =>
    have hpush := (l.start.extend code).rename_add s.ρ (.instr (.ret .void none))
    rw [hextend] at hpush
    exact hpush.symm

/-- **A method that is lowered from other counters is the same up to renaming**: as many names of
each kind are drawn, and they stand in the place of each other. -/
theorem rename_method (h : ∀ x ∈ l.varNames, ¬ IsGenerated x) (n n' : Names) :
    (l.method n').1 = (l.method n).1.rename (.shift n (l.method n).2 n')
      ∧ ∀ k, n.count k ≤ (l.method n).2.count k
        ∧ (l.method n').2.count k + n.count k = (l.method n).2.count k + n'.count k := by
  let s : Shift :=
    ⟨.shift n (l.method n).2 n', n, n', (l.method n).2, fun _ _ ↦ Renaming.shift_name⟩
  have hmirrors : s.Mirrors (Method.rename s.ρ) l.method l.method :=
    l.mirrors_method fun x hx ↦ Renaming.shift_var (h x hx)
  exact hmirrors.renames n n' (fun k ↦ ⟨Nat.le_refl _, Nat.add_comm _ _⟩) (le_refl _)

end Lowerer
end Jmm.Ollir
