import Jmm.Program.OfNode

/-!
# The normal form of a node

Parsers differ in how they spell kinds and in how they nest blocks.  The normal form of a tree
(`Node.normal`) has the canonical spelling of every kind, and the statements of a block inside a
block stand in the outer one.  Conversion does not tell a tree from its normal form: it gives the
same program, and where it fails it blames the same node for the same defect, under the canonical
spelling of its kind (`Node.toProgram_normal`).

This is said function by function.  `Except.mapError` goes through a sequence of conversions step
by step (`mapError_bind`), so that each statement follows from those of the functions it calls.

The children of a parameter list are converted without a look at their kind.  A block there would
be read as a parameter, and its first child as a type; in the normal form that child may be another
one.  So parameter lists are required to hold parameters only.
-/

set_option autoImplicit false

namespace Jmm

/-! ## Canonical spellings -/

namespace NodeKind

/-- The canonical spelling of a kind. -/
def canonical (k : NodeKind) : String := k.spellings.headD ""

/-- The canonical spelling of the kind that has the given spelling.  A text that is no spelling
stays as it is. -/
def respell (s : String) : String :=
  match ofSpelling s with
  | some k => k.canonical
  | none => s

theorem ofSpelling_canonical (k : NodeKind) : ofSpelling k.canonical = some k := by
  cases k <;> decide +kernel

theorem ofSpelling_respell (s : String) : ofSpelling (respell s) = ofSpelling s := by
  rw [respell]
  split
  · rename_i k hk
    rw [hk, ofSpelling_canonical]
  · rfl

theorem respell_respell (s : String) : respell (respell s) = respell s := by
  cases hk : ofSpelling s with
  | none => simp only [respell, hk]
  | some k => simp only [respell, hk, ofSpelling_canonical]

end NodeKind

/-- A report with the canonical spelling of the kind of the node it is about. -/
def Malformed.respelled (m : Malformed) : Malformed := { m with kind := NodeKind.respell m.kind }

namespace Node

/-! ## Nodes of a tree -/

/-- Induction over nodes, with the children as a list. -/
@[elab_as_elim, induction_eliminator]
theorem induct {P : Node → Prop} (mk : ∀ n, (∀ c ∈ n.children, P c) → P n) (n : Node) : P n :=
  @Node.rec P (fun ns ↦ ∀ c ∈ ns, P c) (fun kind attributes children span ih ↦
      mk ⟨kind, attributes, children, span⟩ ih)
    (fun _ h ↦ absurd h List.not_mem_nil)
    (fun _ _ hhead htail c h ↦ by
      rcases List.mem_cons.mp h with rfl | h
      · exact hhead
      · exact htail c h) n

mutual

/-- The nodes of a tree, its root included. -/
def nodes : Node → List Node
  | ⟨kind, attributes, children, span⟩ => ⟨kind, attributes, children, span⟩ :: nodesAll children

/-- The nodes of trees. -/
def nodesAll : List Node → List Node
  | [] => []
  | n :: ns => nodes n ++ nodesAll ns

end

theorem nodesAll_eq (ns : List Node) : nodesAll ns = ns.flatMap nodes := by
  induction ns with
  | nil => rfl
  | cons n ns ih => rw [nodesAll, ih, List.flatMap_cons]

theorem nodes_eq (n : Node) : n.nodes = n :: n.children.flatMap nodes := by
  rw [← nodesAll_eq]
  cases n
  rfl

theorem mem_nodes_self (n : Node) : n ∈ n.nodes := by
  rw [nodes_eq]
  exact List.mem_cons_self

theorem mem_nodes_of_mem_children {m c n : Node} (hc : c ∈ n.children) (hm : m ∈ c.nodes) :
    m ∈ n.nodes := by
  rw [nodes_eq]
  exact List.mem_cons_of_mem n (List.mem_flatMap.mpr ⟨c, hc, hm⟩)

/-- A node that groups statements. -/
def isBlock (n : Node) : Bool := n.kind? = some .block

/-- Kinds have their canonical spelling, and no block stands directly in a block. -/
def IsNormal (t : Node) : Prop :=
  ∀ n ∈ t.nodes, NodeKind.respell n.kind = n.kind
    ∧ (n.isBlock = true → ∀ c ∈ n.children, c.isBlock = false)

/-- Parameter lists hold parameters only. -/
def ListsParams (t : Node) : Prop :=
  ∀ n ∈ t.nodes, n.kind? = some .parameterList → ∀ c ∈ n.children, c.kind? = some .parameter

instance (t : Node) : Decidable t.IsNormal :=
  inferInstanceAs (Decidable (∀ n ∈ t.nodes, _ ∧ _))

instance (t : Node) : Decidable t.ListsParams :=
  inferInstanceAs (Decidable (∀ n ∈ t.nodes, _ → _))

theorem ListsParams.of_mem_children {c n : Node} (h : n.ListsParams) (hc : c ∈ n.children) :
    c.ListsParams :=
  fun m hm ↦ h m (mem_nodes_of_mem_children hc hm)

/-! ## The normal form -/

/-- The nodes with the blocks among them replaced by what is in them. -/
def openBlocks (ns : List Node) : List Node :=
  ns.flatMap fun n ↦ if n.isBlock then n.children else [n]

mutual

/-- The normal form of a tree. -/
def normal : Node → Node
  | ⟨kind, attributes, children, span⟩ =>
    let n : Node := ⟨kind, attributes, children, span⟩
    let parts := normalAll children
    ⟨NodeKind.respell kind, attributes, if n.isBlock then openBlocks parts else parts, span⟩

/-- The normal forms of trees. -/
def normalAll : List Node → List Node
  | [] => []
  | n :: ns => normal n :: normalAll ns

end

theorem normalAll_eq (ns : List Node) : normalAll ns = ns.map normal := by
  induction ns with
  | nil => rfl
  | cons n ns ih => rw [normalAll, ih, List.map_cons]

variable {n : Node}

@[simp] theorem kind_normal : n.normal.kind = NodeKind.respell n.kind := by
  cases n
  rfl

@[simp] theorem span_normal : n.normal.span = n.span := by
  cases n
  rfl

@[simp] theorem attributes_normal : n.normal.attributes = n.attributes := by
  cases n
  rfl

theorem children_normal_of_isBlock (h : n.isBlock = true) :
    n.normal.children = openBlocks (n.children.map normal) := by
  cases n
  rw [← normalAll_eq]
  exact if_pos h

theorem children_normal (h : n.isBlock = false) : n.normal.children = n.children.map normal := by
  cases n
  rw [← normalAll_eq]
  exact if_neg (Bool.eq_false_iff.mp h)

@[simp] theorem kind?_normal : n.normal.kind? = n.kind? := by
  rw [kind?, kind_normal, NodeKind.ofSpelling_respell]
  rfl

@[simp] theorem isBlock_normal : n.normal.isBlock = n.isBlock := by
  rw [isBlock, kind?_normal]
  rfl

@[simp] theorem isType_normal : n.normal.isType = n.isType := by
  rw [isType, kind?_normal]
  rfl

@[simp] theorem value?_normal (name : String) : n.normal.value? name = n.value? name := by
  rw [value?, attributes_normal]
  rfl

@[simp] theorem attr?_normal (name : String) : n.normal.attr? name = n.attr? name := by
  rw [attr?, value?_normal]
  rfl

@[simp] theorem flag_normal (name : String) : n.normal.flag name = n.flag name := by
  rw [flag, value?_normal]
  rfl

@[simp] theorem words?_normal (name : String) : n.normal.words? name = n.words? name := by
  rw [words?, value?_normal]
  rfl

@[simp] theorem malformed_normal (d : Defect) :
    n.normal.malformed d = (n.malformed d).respelled := by
  rw [malformed, kind_normal, span_normal]
  rfl

theorem isBlock_eq_false {k : NodeKind} (h : n.kind? = some k) (hk : k ≠ .block) :
    n.isBlock = false := by
  rw [isBlock, h]
  exact decide_eq_false fun heq ↦ hk (Option.some.inj heq)

/-- **The normal form is normal.** -/
theorem isNormal_normal (t : Node) : t.normal.IsNormal := by
  induction t with
  | mk t ih =>
    -- what an opened block leaves was a child of a normal block, or is no block
    have hopened : ∀ c ∈ openBlocks (t.children.map normal), c.isBlock = false ∧ c.IsNormal := by
      intro c hc
      obtain ⟨n, hn, hc⟩ := List.mem_flatMap.mp hc
      obtain ⟨child, hchild, rfl⟩ := List.mem_map.mp hn
      have hnormal := ih child hchild
      split at hc
      · rename_i hblock
        exact ⟨(hnormal _ (mem_nodes_self _)).2 hblock c hc,
          fun m hm ↦ hnormal m (mem_nodes_of_mem_children hc hm)⟩
      · rename_i hblock
        obtain rfl := List.mem_singleton.mp hc
        exact ⟨Bool.eq_false_iff.mpr hblock, hnormal⟩
    have hchildren : ∀ c ∈ t.normal.children, c.IsNormal := by
      intro c hc
      cases hblock : t.isBlock with
      | true =>
        rw [children_normal_of_isBlock hblock] at hc
        exact (hopened c hc).2
      | false =>
        rw [children_normal hblock] at hc
        obtain ⟨child, hchild, rfl⟩ := List.mem_map.mp hc
        exact ih child hchild
    intro n hn
    rw [nodes_eq] at hn
    rcases List.mem_cons.mp hn with rfl | hn
    · refine ⟨by rw [kind_normal, NodeKind.respell_respell], fun hblock c hc ↦ ?_⟩
      rw [isBlock_normal] at hblock
      rw [children_normal_of_isBlock hblock] at hc
      exact (hopened c hc).1
    · obtain ⟨c, hc, hn⟩ := List.mem_flatMap.mp hn
      exact hchildren c hc n hn

/-! ## Reports under the canonical spelling -/

/-- The outcome of a conversion, its report under the canonical spelling. -/
def respelled {α : Type} (x : Except Malformed α) : Except Malformed α :=
  x.mapError Malformed.respelled

section respelled

variable {α β : Type}

@[simp] theorem respelled_ok (a : α) : respelled (.ok a) = .ok a := rfl

@[simp] theorem respelled_pure (a : α) : respelled (pure a) = pure a := rfl

@[simp] theorem respelled_error (m : Malformed) :
    respelled (α := α) (.error m) = .error m.respelled := rfl

@[simp] theorem respelled_bind (x : Except Malformed α) (f : α → Except Malformed β) :
    respelled (x >>= f) = respelled x >>= fun a ↦ respelled (f a) := by
  cases x <;> rfl

@[simp] theorem respelled_functor (f : α → β) (x : Except Malformed α) :
    respelled (f <$> x) = f <$> respelled x := by
  cases x <;> rfl

@[simp] theorem respelled_map (f : α → β) (x : Except Malformed α) :
    respelled (x.map f) = (respelled x).map f := by
  cases x <;> rfl

theorem respelled_eq_ok_iff {x : Except Malformed α} {a : α} :
    respelled x = .ok a ↔ x = .ok a := by
  cases x with
  | ok b => exact Iff.rfl
  | error m => simp

end respelled

@[simp] theorem attr_normal (name : String) : n.normal.attr name = respelled (n.attr name) := by
  rw [attr, attr, attr?_normal]
  cases n.attr? name with
  | none => simp
  | some s => rfl

/-- A step that goes on with a child. -/
theorem child_bind_normal {α : Type} (h : n.isBlock = false) (position : Nat)
    {f g : Node → Except Malformed α} (hf : ∀ c ∈ n.children, g c.normal = respelled (f c)) :
    (n.normal.child position >>= g) = respelled (n.child position >>= f) := by
  rw [child, child, children_normal h, List.getElem?_map]
  cases hc : n.children[position]? with
  | none => rw [respelled_bind, respelled_error, ← malformed_normal]; rfl
  | some c => exact hf c (List.mem_of_getElem? hc)

theorem integerValue_normal : n.normal.integerValue = respelled n.integerValue := by
  simp only [integerValue, attr_normal, respelled_bind]
  congr 1
  funext text
  cases Text.int32? text <;> simp

theorem booleanValue_normal : n.normal.booleanValue = respelled n.booleanValue := by
  simp only [booleanValue, attr?_normal]
  split <;> simp

theorem operator_normal : n.normal.operator = respelled n.operator := by
  simp only [operator, attr_normal, respelled_bind]
  congr 1
  funext symbol
  cases BinOp.ofSymbol symbol <;> simp

theorem toTypeName_normal : n.normal.toTypeName = respelled n.toTypeName := by
  rw [toTypeName, toTypeName, kind?_normal, span_normal]
  split
  · rename_i hk
    exact child_bind_normal (isBlock_eq_false hk (by decide)) 0 fun c _ ↦ by simp
  · simp
  · simp

theorem elementName_normal (h : n.isBlock = false) :
    n.normal.elementName = respelled n.elementName := by
  rw [elementName, elementName, children_normal h]
  cases n.children with
  | nil => simp
  | cons first rest =>
    simp only [List.map_cons, isType_normal, toTypeName_normal, attr?_normal]
    split <;> simp

/-! ## Expressions -/

/-- A node converts to the same expression as its normal form. -/
def KeepsExpr (n : Node) : Prop := n.normal.toExpr = respelled n.toExpr

section lists

variable {cs : List Node}

theorem exprAt_normal (h : ∀ c ∈ cs, c.KeepsExpr) (position skip : Nat) :
    exprAt n.normal position skip (cs.map normal) = respelled (exprAt n position skip cs) := by
  induction cs generalizing skip with
  | nil => simp [exprAt]
  | cons c cs ih =>
    obtain ⟨hc, hcs⟩ := List.forall_mem_cons.mp h
    cases skip with
    | zero => exact hc
    | succ skip => exact ih hcs skip

theorem exprs_normal (h : ∀ c ∈ cs, c.KeepsExpr) :
    exprs (cs.map normal) = respelled (exprs cs) := by
  induction cs with
  | nil => rfl
  | cons c cs ih =>
    obtain ⟨hc, hcs⟩ := List.forall_mem_cons.mp h
    simp [exprs, show c.normal.toExpr = _ from hc, ih hcs]

theorem lastExpr_normal (h : ∀ c ∈ cs, c.KeepsExpr) :
    lastExpr n.normal (cs.map normal) = respelled (lastExpr n cs) := by
  induction cs with
  | nil => simp [lastExpr]
  | cons c cs ih =>
    obtain ⟨hc, hcs⟩ := List.forall_mem_cons.mp h
    cases cs with
    | nil => exact hc
    | cons c' cs => exact ih hcs

theorem innerExprs_eq (n : Node) : innerExprs n = exprs n.children := by
  cases n
  rfl

theorem arguments_normal (h : ∀ c ∈ cs, c.KeepsExpr)
    (hlists : ∀ c ∈ cs, ∀ c' ∈ c.children, c'.KeepsExpr) :
    arguments (cs.map normal) = respelled (arguments cs) := by
  induction cs with
  | nil => rfl
  | cons c cs ih =>
    obtain ⟨hc, hcs⟩ := List.forall_mem_cons.mp h
    obtain ⟨hlist, hlists⟩ := List.forall_mem_cons.mp hlists
    rw [List.map_cons, arguments, arguments, kind?_normal, ih hcs hlists]
    split
    · rename_i hk
      rw [innerExprs_eq, innerExprs_eq, children_normal (isBlock_eq_false hk (by decide)),
        exprs_normal hlist]
      simp
    · simp [show c.normal.toExpr = _ from hc]

end lists

/-- The normal form of a node that is no block, part by part. -/
theorem normal_eq (h : n.isBlock = false) :
    n.normal = ⟨NodeKind.respell n.kind, n.attributes, n.children.map normal, n.span⟩ := by
  rw [← kind_normal, ← children_normal h, ← span_normal, ← attributes_normal]
  cases n.normal
  rfl

theorem keepsExpr_of_children (hchildren : ∀ c ∈ n.children, c.KeepsExpr)
    (hlists : ∀ c ∈ n.children, ∀ c' ∈ c.children, c'.KeepsExpr) : n.KeepsExpr := by
  rw [KeepsExpr]
  cases hblock : n.isBlock with
  | true =>
    have hk : n.kind? = some .block := of_decide_eq_true hblock
    have herror : ∀ {m : Node}, m.kind? = some .block →
        m.toExpr = .error (m.malformed .unknownExpression) := by
      intro m hm
      cases m
      rw [toExpr, hm]
    rw [herror hk, herror (kind?_normal.trans hk), malformed_normal]
    rfl
  | false =>
    have hn := normal_eq hblock
    obtain ⟨kind, attributes, children, span⟩ := n
    rw [hn, toExpr, toExpr, ← hn, kind?_normal]
    have harguments :
        argumentsAfter (children.map normal) = respelled (argumentsAfter children) := by
      cases children with
      | nil => rfl
      | cons c cs =>
        obtain ⟨_, hrest⟩ := List.forall_mem_cons.mp hchildren
        exact arguments_normal hrest (List.forall_mem_cons.mp hlists).2
    split <;> simp [exprAt_normal hchildren, exprs_normal hchildren, lastExpr_normal hchildren,
      integerValue_normal, booleanValue_normal, operator_normal, elementName_normal hblock,
      harguments]

theorem keepsExpr (n : Node) : n.KeepsExpr ∧ ∀ c ∈ n.children, c.KeepsExpr := by
  induction n with
  | mk n ih =>
    have hchildren : ∀ c ∈ n.children, c.KeepsExpr := fun c hc ↦ (ih c hc).1
    exact ⟨keepsExpr_of_children hchildren fun c hc ↦ (ih c hc).2, hchildren⟩

theorem toExpr_normal (n : Node) : n.normal.toExpr = respelled n.toExpr := (keepsExpr n).1

/-! ## Statements -/

theorem stmtsOf_cons (c : Node) (cs : List Node) : stmtsOf (c :: cs) = do
    let here ← c.toStmts
    let rest ← stmtsOf cs
    return here ++ rest := by
  rw [stmtsOf]

theorem stmtsOf_singleton (c : Node) : stmtsOf [c] = c.toStmts := by
  rw [stmtsOf_cons, show stmtsOf [] = pure [] from rfl]
  simp

theorem stmtsOf_append (a b : List Node) : stmtsOf (a ++ b) = do
    let x ← stmtsOf a
    let y ← stmtsOf b
    return x ++ y := by
  induction a with
  | nil =>
    rw [show stmtsOf [] = pure [] from rfl]
    simp
  | cons c cs ih =>
    simp only [List.cons_append, stmtsOf_cons, ih, bind_assoc, pure_bind, List.append_assoc]

theorem toStmts_of_isBlock (h : n.isBlock = true) : n.toStmts = stmtsOf n.children := by
  have hk : n.kind? = some .block := of_decide_eq_true h
  cases n
  simp only [toStmts.eq_def, hk]

/-- To open blocks changes nothing about their statements. -/
theorem stmtsOf_openBlocks (ns : List Node) : stmtsOf (openBlocks ns) = stmtsOf ns := by
  induction ns with
  | nil => rfl
  | cons n ns ih =>
    have hfirst : stmtsOf (if n.isBlock then n.children else [n]) = n.toStmts := by
      split
      · rename_i h
        exact (toStmts_of_isBlock h).symm
      · exact stmtsOf_singleton n
    have hopen : openBlocks (n :: ns)
        = (if n.isBlock then n.children else [n]) ++ openBlocks ns := List.flatMap_cons
    rw [hopen, stmtsOf_append, hfirst, ih, stmtsOf_cons]

/-- A node converts to the same statements as its normal form. -/
def KeepsStmts (n : Node) : Prop := n.normal.toStmts = respelled n.toStmts

section lists

variable {cs : List Node}

theorem stmtsAt_normal (h : ∀ c ∈ cs, c.KeepsStmts) (position skip : Nat) :
    stmtsAt n.normal position skip (cs.map normal) = respelled (stmtsAt n position skip cs) := by
  induction cs generalizing skip with
  | nil => simp [stmtsAt]
  | cons c cs ih =>
    obtain ⟨hc, hcs⟩ := List.forall_mem_cons.mp h
    cases skip with
    | zero => exact hc
    | succ skip => exact ih hcs skip

theorem stmtsOf_normal (h : ∀ c ∈ cs, c.KeepsStmts) :
    stmtsOf (cs.map normal) = respelled (stmtsOf cs) := by
  induction cs with
  | nil => rfl
  | cons c cs ih =>
    obtain ⟨hc, hcs⟩ := List.forall_mem_cons.mp h
    simp [stmtsOf, show c.normal.toStmts = _ from hc, ih hcs]

end lists

/-- A step that goes on with the expression of a child. -/
theorem childExpr_bind_normal {α : Type} (h : n.isBlock = false) (position : Nat)
    {f g : Expr → Except Malformed α} (hf : ∀ e, g e = respelled (f e)) :
    (do g (← (← n.normal.child position).toExpr))
      = respelled (do f (← (← n.child position).toExpr)) := by
  refine child_bind_normal h position fun c _ ↦ ?_
  rw [toExpr_normal, respelled_bind]
  exact congrArg _ (funext hf)

theorem toStmts_normal (n : Node) : n.normal.toStmts = respelled n.toStmts := by
  induction n with
  | mk n ih =>
    cases hblock : n.isBlock with
    | true =>
      rw [toStmts_of_isBlock hblock, toStmts_of_isBlock (isBlock_normal.trans hblock),
        children_normal_of_isBlock hblock, stmtsOf_openBlocks, stmtsOf_normal ih]
    | false =>
      have hn := normal_eq hblock
      obtain ⟨kind, attributes, children, span⟩ := n
      rw [hn, toStmts.eq_def, toStmts.eq_def]
      dsimp only
      rw [← hn, kind?_normal]
      split
      · exact absurd (decide_eq_true ‹_›) (Bool.eq_false_iff.mp hblock)
      · -- the short form has one child only, and the target as an attribute
        have hlong := childExpr_bind_normal hblock 0 fun target ↦
          childExpr_bind_normal hblock 1 fun value ↦
            (respelled_pure [Stmt.assign target value span]).symm
        rw [attr?_normal]
        rcases children with _ | ⟨c, _ | ⟨c', cs⟩⟩
        · exact hlong
        · cases attr? _ "name" with
          | none => exact hlong
          | some name => simp [toExpr_normal]
        · exact hlong
      · exact childExpr_bind_normal hblock 0 fun e ↦ rfl
      · cases children with
        | nil => rfl
        | cons c cs => simp [toExpr_normal]
      · refine childExpr_bind_normal hblock 0 fun test ↦ ?_
        rw [stmtsAt_normal ih, stmtsAt_normal ih, List.length_map]
        split <;> simp
      · refine childExpr_bind_normal hblock 0 fun test ↦ ?_
        rw [stmtsAt_normal ih]
        simp
      · simp

/-! ## Declarations -/

theorem toVarDecl_normal (h : n.isBlock = false) : n.normal.toVarDecl = respelled n.toVarDecl := by
  rw [toVarDecl, toVarDecl, attr_normal, respelled_bind]
  refine congrArg _ (funext fun name ↦ child_bind_normal h 0 fun c _ ↦ ?_)
  simp [toTypeName_normal]

theorem toParam_normal (h : n.isBlock = false) : n.normal.toParam = respelled n.toParam := by
  rw [toParam, toParam, attr_normal, respelled_bind]
  refine congrArg _ (funext fun name ↦ child_bind_normal h 0 fun c _ ↦ ?_)
  simp [toTypeName_normal]

section lists

variable {cs : List Node}

theorem params_normal (h : ∀ c ∈ cs, c.isBlock = false) :
    (cs.map normal).mapM toParam = respelled (cs.mapM toParam) := by
  induction cs with
  | nil => rfl
  | cons c cs ih =>
    obtain ⟨hc, hcs⟩ := List.forall_mem_cons.mp h
    simp [toParam_normal hc, ih hcs]

/-- Parts that are added child by child. -/
theorem foldlM_normal {α : Type} {f : α → Node → Except Malformed α}
    (h : ∀ c ∈ cs, ∀ p, f p c.normal = respelled (f p c)) (p : α) :
    (cs.map normal).foldlM f p = respelled (cs.foldlM f p) := by
  induction cs generalizing p with
  | nil => rfl
  | cons c cs ih =>
    obtain ⟨hc, hcs⟩ := List.forall_mem_cons.mp h
    simp [hc, ih hcs]

theorem splitReturnType_normal (cs : List Node) : splitReturnType (cs.map normal)
    = (respelled (splitReturnType cs)).map (Prod.map id (List.map normal)) := by
  cases cs with
  | nil => rfl
  | cons first rest =>
    rw [List.map_cons, splitReturnType, splitReturnType, isType_normal, toTypeName_normal]
    split
    · cases first.toTypeName <;> rfl
    · rfl

theorem subset_of_splitReturnType {returns : TypeName} {rest : List Node}
    (h : splitReturnType cs = .ok (returns, rest)) : rest ⊆ cs := by
  cases cs with
  | nil =>
    obtain ⟨_, rfl⟩ := Prod.mk.inj (Except.ok.inj h)
    exact List.Subset.refl _
  | cons first tail =>
    rw [splitReturnType] at h
    split at h
    · cases hfirst : first.toTypeName with
      | error m =>
        rw [hfirst] at h
        cases h
      | ok t =>
        rw [hfirst] at h
        obtain ⟨_, rfl⟩ := Prod.mk.inj (Except.ok.inj h)
        exact List.subset_cons_self first _
    · obtain ⟨_, rfl⟩ := Prod.mk.inj (Except.ok.inj h)
      exact List.Subset.refl _

end lists

theorem addMethodPart_normal (h : n.ListsParams) (p : MethodParts) :
    addMethodPart p n.normal = respelled (addMethodPart p n) := by
  rw [addMethodPart, addMethodPart, kind?_normal]
  split
  · rename_i hk
    simp [toParam_normal (isBlock_eq_false hk (by decide))]
  · rename_i hk
    simp [toVarDecl_normal (isBlock_eq_false hk (by decide))]
  · rename_i hk
    have hparams : ∀ c ∈ n.children, c.isBlock = false := fun c hc ↦
      isBlock_eq_false (h n (mem_nodes_self n) hk c hc) (by decide)
    simp [children_normal (isBlock_eq_false hk (by decide)), params_normal hparams]
  · simp [toStmts_normal]

theorem toMethod_normal (h : n.ListsParams) (hk : n.kind? = some .methodDecl) :
    n.normal.toMethod = respelled n.toMethod := by
  rw [toMethod, toMethod, children_normal (isBlock_eq_false hk (by decide)), splitReturnType_normal]
  cases hsplit : splitReturnType n.children with
  | error m => rfl
  | ok result =>
    obtain ⟨returns, rest⟩ := result
    have hparts : (rest.map normal).foldlM addMethodPart {}
        = respelled (rest.foldlM addMethodPart {}) :=
      foldlM_normal (fun c hc ↦ addMethodPart_normal
        (h.of_mem_children (subset_of_splitReturnType hsplit hc))) {}
    show ((rest.map normal).foldlM addMethodPart {} >>= _)
      = respelled (rest.foldlM addMethodPart {} >>= _)
    rw [hparts]
    simp

theorem addClassPart_normal (h : n.ListsParams) (p : ClassParts) :
    addClassPart p n.normal = respelled (addClassPart p n) := by
  rw [addClassPart, addClassPart, kind?_normal]
  split
  · rename_i hk
    simp [toVarDecl_normal (isBlock_eq_false hk (by decide))]
  · rename_i hk
    simp [toMethod_normal h hk]
  · simp

theorem toClass_normal (h : n.ListsParams) (hk : n.kind? = some .classDecl) :
    n.normal.toClass = respelled n.toClass := by
  have hparts := foldlM_normal (fun c hc ↦ addClassPart_normal (h.of_mem_children hc)) {}
  rw [toClass, toClass, children_normal (isBlock_eq_false hk (by decide)), hparts]
  simp [superclass?]

theorem toImport_normal : n.normal.toImport = respelled n.toImport := by
  have hpath : n.normal.importPath = respelled n.importPath := by
    rw [importPath, importPath, words?_normal]
    cases n.words? "value" with
    | none => simp
    | some path => rfl
  rw [toImport, toImport, hpath, respelled_bind]
  refine congrArg _ (funext fun path ↦ ?_)
  split <;> simp

theorem addDeclaration_normal (h : n.ListsParams) (p : Program) :
    addDeclaration p n.normal = respelled (addDeclaration p n) := by
  rw [addDeclaration, addDeclaration, kind?_normal]
  split
  · simp [toImport_normal]
  · rename_i hk
    simp [toClass_normal h hk]
  · simp

/-- **Conversion and the normal form.**  A tree and its normal form convert to the same program, or
fail at the same node for the same reason. -/
theorem toProgram_normal {t : Node} (h : t.ListsParams) :
    t.normal.toProgram = respelled t.toProgram := by
  rw [toProgram, toProgram, kind?_normal, span_normal]
  split
  · rename_i hk
    rw [children_normal (isBlock_eq_false hk (by decide))]
    exact foldlM_normal (fun c hc ↦ addDeclaration_normal (h.of_mem_children hc)) _
  · simp

end Node

/-- **Only the normal form matters.**  Where parameter lists hold parameters only, a tree converts
to a program if and only if its normal form converts to the same program. -/
theorem toProgram_eq_ok_iff_normal {t : Node} (h : t.ListsParams) :
    t.normal.IsNormal ∧ ∀ p, t.toProgram = .ok p ↔ t.normal.toProgram = .ok p := by
  refine ⟨t.isNormal_normal, fun p ↦ ?_⟩
  rw [Node.toProgram_normal h, Node.respelled_eq_ok_iff]

/-- The statement for a method with a parameter list and a block in a block in a block, in the less
common spellings: the blocks are gone in the program. -/
theorem toProgram_eq_ok_iff_normal_nested :
    let node (kind name : String) (children : List Node) : Node :=
      ⟨kind, [("name", .string name)], children, {}⟩
    let ret : Node := node "ReturnStmt" "" [node "ParenExpr" "" [node "VarRefExpr" "x" []]]
    let body : Node := node "Stmt" "" [node "Block" "" [ret, node "ScopeStmt" "" [ret]], ret]
    let params : Node := node "ParamList" "" [node "Param" "x" [node "Type" "int" []]]
    let t : Node := node "Program" "" [node "ImportDecl" "io" [],
      node "ClassDecl" "Main" [node "MethodDecl" "f" [params, body]]]
    let value : Stmt := .ret (some (.paren (.ident "x" {}) {})) {}
    let p : Program :=
      { imports := [{ path := ["io"] }]
        classes := [
          { name := "Main", superclass := none, fields := []
            methods := [
              { name := "f", isPublic := false, isStatic := false, returns := { name := "void" }
                params := [{ name := "x", type := { name := "int" } }], locals := []
                body := [value, value, value] }] }] }
    t.ListsParams ∧ ¬ t.IsNormal ∧ t.normal.IsNormal ∧ t.toProgram = .ok p
      ∧ t.normal.toProgram = .ok p := by
  intro node ret body params t value p
  have hlists : t.ListsParams := by decide +kernel
  have hp : t.toProgram = .ok p := rfl
  obtain ⟨hnormal, hsame⟩ := toProgram_eq_ok_iff_normal hlists
  exact ⟨hlists, by decide +kernel, hnormal, hp, (hsame p).mp hp⟩

end Jmm
