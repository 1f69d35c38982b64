import Jmm.Proofs.Lowering.Jumps
import Jmm.Proofs.Typing.LoweredTypes

/-!
# Packed arguments

The arguments of a call to a method whose one parameter is a vararg are packed into a new array,
unless there is one argument and it is an array.  Whether arguments fit is decided by their inferred
types, where the name of a vararg has the type of its elements; whether they are packed is decided
by the type of a lone argument in lowered code, where that name has the type of an array.

A call without violations always gets one argument, an array of the right type.  If it was packed,
its length is the number of arguments and each position is stored to once, in order
(`vararg_calls_pack`).  What is stored has the type of the elements unless the argument is the name
of a vararg, alone in parentheses or among other arguments: then it is an array itself
(`packs_array_as_element`).
-/

set_option autoImplicit false

namespace Jmm

/-! ## Arguments that fit -/

theorem SymbolTable.fillsVararg_of_accepts {t : SymbolTable} {p : Symbol} {actuals : List Ty}
    (hp : p.isVararg = true) (h : t.accepts [p] actuals = true) :
    fillsVararg p.type actuals = true := by
  simpa [accepts, splitVararg, hp] using h

/-- What may stand for a vararg: one array of its elements, or elements only. -/
theorem SymbolTable.fillsVararg_cases {element : Ty} {actuals : List Ty}
    (h : fillsVararg element actuals = true) :
    (∃ only, actuals = [only] ∧ only.element? = some element)
      ∨ ∀ t ∈ actuals, t = element := by
  cases actuals with
  | nil => exact .inr fun t ht ↦ absurd ht List.not_mem_nil
  | cons first rest =>
    rw [fillsVararg] at h
    split at h
    · rename_i hlone
      obtain ⟨hrest, _⟩ := (Bool.and_eq_true _ _).mp hlone
      rw [List.isEmpty_iff.mp hrest]
      exact .inl ⟨first, rfl, eq_of_beq h⟩
    · obtain ⟨hall, hfirst⟩ := (Bool.and_eq_true _ _).mp h
      refine .inr fun t ht ↦ ?_
      obtain ⟨hsame, _⟩ := (Bool.and_eq_true _ _).mp (List.all_eq_true.mp hall t ht)
      exact (eq_of_beq hsame).trans (eq_of_beq hfirst)

/-- A call on the class itself without violations has arguments that fit. -/
theorem Checker.accepts_of_callee {c : Checker} {receiver : Expr} {method : String}
    {args : List Expr} {span : Span} (h : c.callee receiver method args span = [])
    (hreceiver : c.site.typeOf receiver = .named c.table.className)
    (hsuper : c.table.superclass = none) {s : Signature}
    (hmethod : c.table.method? method = some s) :
    c.table.accepts s.params (args.map c.site.typeOf) = true := by
  rw [callee, if_pos ⟨hreceiver, hsuper⟩, hmethod] at h
  by_contra hfit
  simp [hfit] at h

/-- Parameters have types that a program can write. -/
theorem SymbolTable.param_type_ne {imports : List ImportDecl} {c : ClassDecl} {method : String}
    {s : Signature} (h : (SymbolTable.ofClass imports c).method? method = some s) {p : Symbol}
    (hp : p ∈ s.params) : p.type ≠ .error ∧ p.type ≠ .imported := by
  obtain ⟨d, _, rfl⟩ := List.mem_map.mp (List.mem_reverse.mp (List.mem_of_find?_eq_some h))
  obtain ⟨param, _, rfl⟩ := List.mem_map.mp hp
  exact Ty.ofTypeName_ne param.type

/-- A value is no import. -/
theorem Site.namesImport_eq_false {s : Site} {e : Expr} (h : s.typeOf e ≠ .imported) :
    s.namesImport e = false := by
  cases e with
  | ident name span =>
    by_contra himport
    exact h (if_pos (Bool.not_eq_false _ ▸ himport))
  | _ => rfl

namespace Ollir

/-! ## Stores to an array -/

/-- The index at which an instruction stores to an array, and the type of the value. -/
def Instr.elementStore? (array : String) : Instr → Option (Operand × Ty)
  | assign (.element name index _) _ value =>
    if name = array then some (index, value.resultType) else none
  | _ => none

/-- The arrays that code stores elements of. -/
abbrev elementTargets (code : List Item) : List String :=
  gather (fun i ↦ i.elementTarget?.toList) code

/-- The indices at which code stores to an array, in order, with the types of the values. -/
abbrev storesTo (array : String) (code : List Item) : List (Operand × Ty) :=
  gather (fun i ↦ (i.elementStore? array).toList) code

section Stores

variable {code : List Item} {array : String}

/-- Nothing is stored to an array that is no target. -/
theorem storesTo_eq_nil (h : array ∉ elementTargets code) : storesTo array code = [] := by
  refine List.flatMap_eq_nil_iff.mpr fun i hi ↦ ?_
  by_contra hstore
  refine h (List.mem_flatMap.mpr ⟨i, hi, ?_⟩)
  cases i with
  | assign target type value =>
    cases target with
    | element name index element =>
      by_cases hname : name = array
      · simp [Instr.elementTarget?, hname]
      · simp [Instr.elementStore?, hname] at hstore
    | _ => exact absurd rfl hstore
  | _ => exact absurd rfl hstore

/-- Code stores to arrays that are given, or that it assigns to. -/
theorem Structured.elementTargets_subset {this : Bool} {arrays : List String}
    (h : Structured this arrays code) :
    elementTargets code ⊆ arrays ++ writesOf code := by
  induction h with
  | nil => exact List.nil_subset _
  | instr hi =>
    rw [elementTargets, gather_instr, Instr.elementTarget?_of_isStraight hi]
    exact List.nil_subset _
  | append _ _ iha ihb =>
    rw [elementTargets, gather_append, writesOf_append]
    grind
  | @diamond _ test trueLabel endLabel a b _ _ _ iha ihb =>
    rw [elementTargets, gather_diamond, writesOf_diamond]
    change elementTargets a ++ elementTargets b ⊆ _
    grind
  | store harray _ => exact List.cons_subset.mpr ⟨List.mem_append_left _ harray, List.nil_subset _⟩
  | fill _ _ ih =>
    rw [writesOf_assignVar]
    refine fun x hx ↦ ?_
    have := ih hx
    grind

end Stores

namespace Lowerer

variable (l : Lowerer)

/-- Code does not store to an array that was drawn before it. -/
theorem storesTo_asOperand {array : String} {n₀ n : Names} (harray : n₀.NewVar n array) (e : Expr)
    (use : Use) : storesTo array (asOperand (l.expr e use) n).1.1 = [] := by
  refine storesTo_eq_nil fun hmem ↦ ?_
  have hnew := ((l.expr_fresh e use).asOperand n).1.writes array
    ((structured_asOperand (l.structured_expr e (l.allows_true _) [] use) n).1.elementTargets_subset
      hmem)
  exact harray.not_later (le_refl n) hnew

/-- **Each expression is stored once**, at its position. -/
theorem storesTo_stores {array : String} {n₀ n : Names} (harray : n₀.NewVar n array)
    (es : List Expr) (element : Ty) (position : Nat) :
    storesTo array (l.stores array element position es n).1
      = es.mapIdx fun i e ↦
          (Operand.int (Int32.ofNat (position + i)), l.valueType e (.expected element)) := by
  induction es generalizing position n with
  | nil => rfl
  | cons e es ih =>
    have hle := ((l.expr_fresh e (.expected element)).asOperand n).1.le
    rw [Lowerer.stores, List.mapIdx_cons]
    simp only [Draw.bind_apply, Draw.pure_apply, gather_append, l.storesTo_asOperand harray,
      List.nil_append, gather_instr, ih (harray.mono (le_refl n₀) hle)]
    have hvalue : (asOperand (l.expr e (.expected element)) n).1.2.type
        = l.valueType e (.expected element) := l.type_operand _ _ n
    simp only [Instr.elementStore?, if_true, Option.toList_some, List.cons_append, List.nil_append,
      Instr.resultType, hvalue, Nat.add_zero, Nat.add_assoc, Nat.add_comm 1]

/-! ## Calls -/

/-- Code that packs arguments into an array and leaves it in a variable.  The array has as many
elements as there are arguments, and the code stores one argument at each position of it, in order.
An argument that is the name of a vararg is an array itself. -/
def Packs (element : Jmm.Ty) (args : List Expr) (code : List Item) (o : Operand) : Prop :=
  ∃ before temp array rest,
    code = before
        ++ assignVar temp (.array (.ofTy element)) (.call (Call.newArray
          (Operand.int (Int32.ofNat args.length)) (.array (.ofTy element)))) :: rest
      ∧ o = .var array (.array (.ofTy element))
      ∧ (args = [] → array = temp ∧ rest = [])
      ∧ (args ≠ [] → ∃ stores, array ∉ writesOf stores
        ∧ rest = assignVar array (.array (.ofTy element))
          (.single (.var temp (.array (.ofTy element)))) :: stores)
      ∧ storesTo array code = args.mapIdx fun i e ↦
          (Operand.int (Int32.ofNat i), Ty.ofBinding element (l.site.isVarargIdent e.unparen))

/-- Arguments that are packed make one argument.  The code before them does not get in the way if
its names were drawn before. -/
theorem packs_callArgs {element : Jmm.Ty} {formals : List (Ty × Bool)} {args : List Expr}
    (hpacked : l.packedType? formals args = some (.ofTy element))
    (hvalues : ∀ e ∈ args, l.valueType e (.expected (.ofTy element))
      = Ty.ofBinding element (l.site.isVarargIdent e.unparen))
    {before : List Item} {n₀ n : Names} (hbefore : Structured true [] before)
    (hdraws : Draws n₀ n before) :
    ∃ o, (l.callArgs formals args n).1.2 = [o]
      ∧ l.Packs element args (before ++ (l.callArgs formals args n).1.1) o := by
  have hskip : ∀ {k : NameKind} {m : Names} (code : List Item), n ≤ m → k.isLabel = false →
      storesTo (k.name (m.count k)) (before ++ code) = storesTo (k.name (m.count k)) code := by
    intro k m code hle hk
    have hnone : storesTo (k.name (m.count k)) before = [] := by
      refine storesTo_eq_nil fun hmem ↦ ?_
      have hwrite := hbefore.elementTargets_subset hmem
      exact (hdraws.writes _ hwrite).not_later hle (Names.newVar_next hk (le_refl _))
    exact (gather_append ..).trans (congrArg (· ++ _) hnone)
  rw [callArgs, hpacked]
  cases args with
  | nil =>
    refine ⟨_, rfl, before, _, _, _, rfl, rfl, fun _ ↦ ⟨rfl, rfl⟩, fun h ↦ absurd rfl h, ?_⟩
    rw [hskip _ (le_refl n) rfl]
    rfl
  | cons first rest =>
    have harray := Names.newVar_next (n := n.bump .temp) (k := .varargsArray) rfl (le_refl _)
    have hstores := l.storesTo_stores harray (first :: rest) (.ofTy element) 0
    have hdrawn := fun array ↦ l.fresh_stores (fun e (_ : e ∈ first :: rest) ↦ l.expr_fresh e) array
      (.ofTy element) 0 ((n.bump .temp).bump .varargsArray)
    refine ⟨_, rfl, before, _, _, _, congrArg (before ++ ·) (List.append_nil _), rfl,
      fun h ↦ absurd h (List.cons_ne_nil first rest), fun _ ↦ ⟨_, fun hmem ↦ ?_, rfl⟩, ?_⟩
    · exact harray.not_later (le_refl _) ((hdrawn _).writes _ hmem)
    · rw [hskip _ (Names.le_bump n .temp) rfl]
      refine (congrArg (storesTo _) (List.append_nil _)).trans (hstores.trans ?_)
      refine List.mapIdx_eq_mapIdx_iff.mpr fun i hi ↦ ?_
      rw [hvalues _ (List.getElem_mem hi), Nat.zero_add]

/-- Where arguments fit a vararg, the lowered types of their values are known. -/
theorem valueType_of_eq {element : Jmm.Ty} (herror : element ≠ .error)
    (himported : element ≠ .imported) {e : Expr} (htype : l.site.typeOf e = element) :
    l.valueType e (.expected (.ofTy element))
      = Ty.ofBinding element (l.site.isVarargIdent e.unparen) := by
  subst htype
  rw [l.valueType_eq_typeOf herror himported, Lowerer.typeOf, Site.typeOf_unparen]
  rw [Lowerer.typeOf, Site.typeOf_unparen, Ty.ofBinding]
  split
  · exact fun h ↦ Ty.noConfusion h
  · exact id

/-- A lone argument that is not packed has the type of an array of the elements. -/
theorem valueType_of_isArray {element : Jmm.Ty} (herror : element ≠ .error)
    (himported : element ≠ .imported) (harray : element.isArray = false) {e : Expr}
    (htype : (l.site.typeOf e).element? = some element ∨ l.site.typeOf e = element)
    (hlowered : (l.typeOf e).isArray = true) :
    l.valueType e (.expected (.ofTy element)) = .array (.ofTy element) := by
  rcases htype with htype | htype
  · have hisArray : (l.site.typeOf e).isArray = true := by
      rw [Jmm.Ty.isArray_eq_isSome, htype]
      rfl
    have hne : ∀ t : Jmm.Ty, t.element? = none → l.site.typeOf e ≠ t := by
      rintro t ht rfl
      rw [ht] at htype
      cases htype
    have hunparen : l.typeOf e.unparen = .array (.ofTy element) := by
      rw [Lowerer.typeOf, Site.typeOf_unparen, Ty.ofBinding_of_isArray hisArray,
        Ty.ofTy_of_element? htype]
    rw [l.valueType_eq_typeOf (hne .error rfl) (hne .imported rfl), hunparen]
    rw [hunparen]
    exact fun h ↦ Ty.noConfusion h
  · -- only the name of a vararg has an array for its type here
    have hvararg : l.site.isVarargIdent e = true := by
      by_contra hvararg
      rw [Lowerer.typeOf, Bool.not_eq_true _ |>.mp hvararg, Ty.ofBinding_false, Ty.isArray_ofTy,
        htype, harray] at hlowered
      cases hlowered
    have hunparen : e.unparen = e := by
      cases e with
      | ident => rfl
      | _ => cases hvararg
    rw [l.valueType_of_eq herror himported htype, hunparen, hvararg, Ty.ofBinding_true harray]

/-- The arguments of a call to a method with one vararg make one argument. -/
theorem exists_callArgs {p : Symbol} {args : List Expr} (hne : p.type ≠ .error ∧ p.type ≠ .imported)
    (helement : p.type.isArray = false)
    (hfills : SymbolTable.fillsVararg p.type (args.map l.site.typeOf) = true)
    {before : List Item} {n₀ n : Names} (hbefore : Structured true [] before)
    (hdraws : Draws n₀ n before) :
    ∃ o, (l.callArgs [(.array (.ofTy p.type), true)] args n).1.2 = [o]
      ∧ o.type = .array (.ofTy p.type)
      ∧ ((∀ only, args = [only] → (l.typeOf only).isArray = false) →
        l.Packs p.type args
          (before ++ (l.callArgs [(.array (.ofTy p.type), true)] args n).1.1) o) := by
  have hcases := SymbolTable.fillsVararg_cases hfills
  by_cases hlone : ∃ only, args = [only] ∧ (l.typeOf only).isArray = true
  · obtain ⟨only, rfl, harray⟩ := hlone
    have hpassed : l.packedType? [(.array (.ofTy p.type), true)] [only] = none := if_pos harray
    have htype : (l.site.typeOf only).element? = some p.type ∨ l.site.typeOf only = p.type := by
      rcases hcases with ⟨t, ht, helement⟩ | hall
      · rw [List.map_singleton, List.singleton_inj] at ht
        exact .inl (ht ▸ helement)
      · exact .inr (hall _ List.mem_cons_self)
    rw [callArgs, hpassed]
    refine ⟨_, rfl, ?_, fun h ↦ ?_⟩
    · exact (l.type_operand _ _ n).trans
        (l.valueType_of_isArray hne.1 hne.2 helement htype harray)
    · rw [h only rfl] at harray
      cases harray
  · have hpacked : l.packedType? [(.array (.ofTy p.type), true)] args = some (.ofTy p.type) := by
      cases args with
      | nil => rfl
      | cons only rest =>
        cases rest with
        | nil => exact if_neg fun h ↦ hlone ⟨only, rfl, h⟩
        | cons second rest => rfl
    have hall : ∀ e ∈ args, l.site.typeOf e = p.type := by
      rcases hcases with ⟨t, ht, helement⟩ | hall
      · obtain ⟨only, rfl, rfl⟩ := List.map_eq_singleton_iff.mp ht
        have harray : (l.site.typeOf only).isArray = true := by
          rw [Jmm.Ty.isArray_eq_isSome, helement]
          rfl
        refine absurd ⟨only, rfl, ?_⟩ hlone
        rw [Lowerer.typeOf, Ty.ofBinding_of_isArray harray, Ty.isArray_ofTy, harray]
      · exact fun e he ↦ hall _ (List.mem_map_of_mem he)
    obtain ⟨o, ho, hpacks⟩ := l.packs_callArgs hpacked
      (fun e he ↦ l.valueType_of_eq hne.1 hne.2 (hall e he)) hbefore hdraws
    refine ⟨o, ho, ?_, fun _ ↦ hpacks⟩
    obtain ⟨_, _, _, _, _, rfl, _⟩ := hpacks
    rfl

end Lowerer

end Ollir

open Ollir

/-- **Arguments for a vararg.**  Let a class without superclass have no violation, and consider a
call in one of its methods, at any depth, to a method of the class whose one parameter is a vararg
with elements that are no arrays.  However its value is used, the lowered call has one argument,
which is an array of the elements.  If the argument of the call is not itself one array, its
arguments are packed. -/
theorem vararg_calls_pack {imports : List ImportDecl} {c : ClassDecl}
    (hclean : (Analysis.ofClass imports c).hasErrors = false) (hsuper : c.superclass = none)
    {d : MethodDecl} (hd : d ∈ c.methods) {e receiver : Expr} {method : String} {args : List Expr}
    {span : Span} (he : e ∈ Stmt.exprsAll d.body)
    (hcall : (Expr.call receiver method args span).OccursIn e)
    (hreceiver : ((Analysis.ofClass imports c).lowerer d).site.typeOf receiver = .named c.name)
    {s : Signature} {p : Symbol}
    (hmethod : (Analysis.ofClass imports c).table.method? method = some s)
    (hparams : s.params = [p]) (hvararg : p.isVararg = true) (helement : p.type.isArray = false)
    (use : Use) (n : Names) :
    let l := (Analysis.ofClass imports c).lowerer d
    ∃ code caller o n',
      let call : Call :=
        { kind := .virtual, caller, method := some method, args := [o],
          returns := l.callType (.call receiver method args span) use }
      l.expr (.call receiver method args span) use n
          = (if use = .statement then (⟨code, .call call⟩, n') else stored code (.call call) n')
        ∧ o.type = .array (.ofTy p.type)
        ∧ ((∀ only, args = [only] → (l.typeOf only).isArray = false) →
          l.Packs p.type args code o) := by
  intro l
  have hexpr := List.append_eq_nil_iff.mp (Analysis.expr_eq_nil hclean hd he hcall)
  have haccepts := Checker.accepts_of_callee (List.append_eq_nil_iff.mp hexpr.1).1 hreceiver hsuper
    hmethod
  rw [hparams] at haccepts
  have hne := SymbolTable.param_type_ne hmethod (hparams ▸ List.mem_singleton_self p)
  have hformals : l.formals receiver method = [(.array (.ofTy p.type), true)] := by
    have hclass : l.site.typeOf receiver = .named l.table.className := hreceiver
    rw [Lowerer.formals, if_pos hclass, show l.table.method? method = some s from hmethod]
    simp only [hparams, List.map_singleton, hvararg, Ty.ofBinding_true helement]
  have himport : l.site.namesImport receiver = false :=
    Site.namesImport_eq_false (hreceiver ▸ fun h ↦ Ty.noConfusion h)
  obtain ⟨o, ho, htype, hpacks⟩ := l.exists_callArgs hne helement
    (SymbolTable.fillsVararg_of_accepts hvararg haccepts)
    (structured_asOperand (l.structured_expr receiver (l.allows_true _) [] .operand) n).1
    ((l.expr_fresh receiver .operand).asOperand n).1
  refine ⟨_, (asOperand (l.expr receiver .operand) n).1.2, o,
    (l.callArgs [(.array (.ofTy p.type), true)] args (asOperand (l.expr receiver .operand) n).2).2,
    ?_, htype, hpacks⟩
  rw [l.expr_call, Lowerer.finishCall, himport, hformals, ho]
  split <;> rfl

/-- The call `this.sum(…)` with the given arguments. -/
def Expr.callSum (args : List Expr) : Expr := .call (.self {}) "sum" args {}

/-- A class with two methods that have one vararg `v` each.  The second one calls the first one with
the given arguments. -/
def ClassDecl.summing (args : List Expr) : ClassDecl :=
  let v : Param := { name := "v", type := { name := "int", isVararg := true } }
  let method (name : String) (value : Expr) : MethodDecl :=
    { name, isPublic := true, isStatic := false, returns := { name := "int" }, params := [v],
      locals := [], body := [.ret (some value) {}] }
  { name := "Main", superclass := none, fields := [],
    methods := [method "sum" (.index (.ident "v" {}) (.int 0 {}) {}),
      method "forward" (.callSum args)] }

/-- The statement for `this.sum(1, v[0] + 2)` as an operand. -/
theorem vararg_calls_pack_two :
    let args : List Expr := [.int 1 {},
      .binary .add (.index (.ident "v" {}) (.int 0 {}) {}) (.int 2 {}) {}]
    let a := Analysis.ofClass [] (.summing args)
    ∃ d ∈ (ClassDecl.summing args).methods, a.hasErrors = false
      ∧ ∃ code caller o n',
        let call : Call :=
          { kind := .virtual, caller, method := some "sum", args := [o], returns := .int32 }
        (a.lowerer d).expr (.callSum args) .operand {} = stored code (.call call) n'
          ∧ o.type = .array .int32 ∧ (a.lowerer d).Packs .int args code o := by
  intro args a
  have hclean : a.hasErrors = false := by decide +kernel
  refine ⟨_, List.mem_cons_of_mem _ List.mem_cons_self, hclean, ?_⟩
  obtain ⟨code, caller, o, n', hexpr, htype, hpacks⟩ :=
    vararg_calls_pack hclean rfl (List.mem_cons_of_mem _ List.mem_cons_self)
      List.mem_cons_self .refl (by decide +kernel) (s := Signature.ofDecl
        ((ClassDecl.summing args).methods.head (List.cons_ne_nil _ _))) (by decide +kernel)
      rfl rfl rfl .operand {}
  exact ⟨code, caller, o, n', hexpr, htype, hpacks fun only h ↦ by simp [args] at h⟩

/-- For `this.sum(v)` the array `v` is passed on, but for `this.sum((v))` it is stored in the new
array, as its first element. -/
theorem packs_array_as_element :
    let v : Expr := .ident "v" {}
    let a (arg : Expr) := Analysis.ofClass [] (.summing [arg])
    let stores (arg : Expr) := ((a arg).lower (.summing [arg])).methods.map fun m ↦
      m.instrs.filterMap (Instr.elementStore? "__varargs_array_0")
    (a v).violations = [] ∧ (a (.paren v {})).violations = []
      ∧ stores v = [[], []]
      ∧ stores (.paren v {}) = [[], [(Operand.int 0, .array .int32)]] := by
  decide +kernel

end Jmm
