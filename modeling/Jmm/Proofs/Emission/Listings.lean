import Jmm.Proofs.Emission.Methods

/-!
# Listings of methods made by edits

A method grows by edits: an instruction is pushed, a label is placed, or a sequence of both is added
(`Edit`).  Its labels are kept apart from its instructions, each with the index it stands before, so
their order is to be found again by a walk over the indices (`Method.walk`), which is the listing
(`Method.walk_eq_listing`).

Every edit extends the method by what it adds, so a run of edits extends it by all that they add
(`Method.edit_eq_extend`).  The walk over a method that was made by edits then meets what they
added, in that order, and the text and the assembly of the method have it in that order
(`edited_methods_keep_order`).  In assembly this is said by `Emitter.EmitsEach`, which gives every
label and instruction a block of its own.
-/

set_option autoImplicit false

namespace Jmm

namespace Ollir

/-! ## Edits -/

/-- One way to add to a method. -/
inductive Edit where
  | push (i : Instr)
  | placeLabel (label : String)
  | extend (items : List Item)
deriving DecidableEq, Repr, Inhabited

/-- What an edit adds, in order. -/
def Edit.added : Edit → List Item
  | push i => [.instr i]
  | placeLabel label => [.label label]
  | extend items => items

namespace Method

/-- The method after an edit. -/
def apply (m : Method) : Edit → Method
  | .push i => m.push i
  | .placeLabel label => m.placeLabel label
  | .extend items => m.extend items

/-- The method after edits, one after the other. -/
def edit (m : Method) (edits : List Edit) : Method := edits.foldl apply m

theorem apply_eq_extend (m : Method) (e : Edit) : m.apply e = m.extend e.added := by
  cases e <;> rfl

theorem extend_extend (m : Method) (code code' : List Item) :
    (m.extend code).extend code' = m.extend (code ++ code') :=
  List.foldl_append.symm

/-- Edits extend a method by what they add. -/
theorem edit_eq_extend (m : Method) (edits : List Edit) :
    m.edit edits = m.extend (edits.flatMap Edit.added) := by
  induction edits generalizing m with
  | nil => rfl
  | cons e edits ih =>
    rw [edit, List.foldl_cons, ← edit, ih, apply_eq_extend, extend_extend, List.flatMap_cons]

/-! ## Walks over the indices -/

/-- The labels and instructions that a walk over the indices meets: at each index the labels there
and then the instruction, and at the end the labels after the last instruction. -/
def walk (m : Method) : List Item :=
  m.instrs.zipIdx.flatMap (fun p ↦ (m.labelsAt p.2).map Item.label ++ [.instr p.1])
    ++ (m.labelsAt m.instrs.length).map Item.label

theorem walkFrom_eq_listingFrom (m : Method) (index : Nat) (is : List Instr) :
    (is.zipIdx index).flatMap (fun p ↦ (m.labelsAt p.2).map Item.label ++ [.instr p.1])
        ++ (m.labelsAt (index + is.length)).map Item.label
      = m.listingFrom index is := by
  induction is generalizing index with
  | nil => rfl
  | cons i is ih =>
    have hindex : index + (i :: is).length = index + 1 + is.length := by
      rw [List.length_cons]
      omega
    rw [List.zipIdx_cons, List.flatMap_cons, List.append_assoc, hindex, ih, listingFrom,
      List.append_assoc, List.singleton_append]

theorem walk_eq_listing (m : Method) : m.walk = m.listing := by
  have hwalk := m.walkFrom_eq_listingFrom 0 m.instrs
  rwa [Nat.zero_add] at hwalk

end Method
end Ollir

namespace Jasmin

/-- Labels and instructions are emitted one after the other, each to a block of its own, and the
numbers that one of them draws are those after the numbers of the one before. -/
inductive Emitter.EmitsEach (e : Emitter) : List Ollir.Item → Nat → List (List Step) → Nat → Prop
  | nil {n : Nat} : EmitsEach e [] n [] n
  | cons {item : Ollir.Item} {items : List Ollir.Item} {n n₁ n₂ : Nat} {block : List Step}
    {blocks : List (List Step)} (hitem : e.item item n = .ok (block, n₁))
    (hitems : EmitsEach e items n₁ blocks n₂) :
    EmitsEach e (item :: items) n (block :: blocks) n₂

namespace Emitter

variable {e : Emitter} {items : List Ollir.Item} {n n' : Nat}

theorem items_eq_ok_iff {code : List Step} :
    e.items items n = .ok (code, n') ↔ ∃ blocks, e.EmitsEach items n blocks n'
      ∧ code = blocks.flatten := by
  induction items generalizing n code with
  | nil =>
    rw [Emitter.items, Emit.pure_eq_ok_iff]
    constructor
    · rintro ⟨rfl, rfl⟩
      exact ⟨[], .nil, rfl⟩
    · rintro ⟨blocks, hblocks, rfl⟩
      cases hblocks
      exact ⟨rfl, rfl⟩
  | cons item items ih =>
    rw [Emitter.items, Emit.bind_eq_ok_iff]
    constructor
    · rintro ⟨block, n₁, hblock, h⟩
      obtain ⟨rest, n₂, hrest, h⟩ := Emit.bind_eq_ok_iff.mp h
      obtain ⟨rfl, rfl⟩ := Emit.pure_eq_ok_iff.mp h
      obtain ⟨blocks, hblocks, rfl⟩ := ih.mp hrest
      exact ⟨block :: blocks, .cons hblock hblocks, rfl⟩
    · rintro ⟨blocks, hblocks, rfl⟩
      cases hblocks with
      | cons hblock hblocks =>
        exact ⟨_, _, hblock, Emit.bind_eq_ok_iff.mpr
          ⟨_, _, ih.mpr ⟨_, hblocks, rfl⟩, Emit.pure_eq_ok_iff.mpr ⟨rfl, rfl⟩⟩⟩

/-- Emission stops at the first label or instruction that has no code. -/
theorem items_eq_error_iff {fault : Fault} :
    e.items items n = .error fault ↔ ∃ before item after blocks n',
      items = before ++ item :: after ∧ e.EmitsEach before n blocks n'
        ∧ e.item item n' = .error fault := by
  induction items generalizing n with
  | nil =>
    refine iff_of_false (fun h ↦ nomatch h) ?_
    rintro ⟨before, item, after, _, _, heq, _⟩
    cases before <;> cases heq
  | cons first items ih =>
    rw [Emitter.items, Emit.bind_eq_error_iff]
    constructor
    · rintro (hfirst | ⟨block, n₁, hblock, h⟩)
      · exact ⟨[], first, items, [], n, rfl, .nil, hfirst⟩
      · rcases Emit.bind_eq_error_iff.mp h with hrest | ⟨_, _, _, hpure⟩
        · obtain ⟨before, item, after, blocks, n', rfl, hblocks, hitem⟩ := ih.mp hrest
          exact ⟨first :: before, item, after, block :: blocks, n', rfl, .cons hblock hblocks,
            hitem⟩
        · cases hpure
    · rintro ⟨before, item, after, blocks, n', heq, hblocks, hitem⟩
      cases hblocks with
      | nil =>
        obtain ⟨rfl, rfl⟩ := List.cons.inj heq
        exact .inl hitem
      | cons hblock hblocks =>
        obtain ⟨rfl, rfl⟩ := List.cons.inj heq
        exact .inr ⟨_, _, hblock, Emit.bind_eq_error_iff.mpr
          (.inl (ih.mpr ⟨_, item, after, _, n', rfl, hblocks, hitem⟩))⟩

end Emitter

section emitMethod

variable {unit : Ollir.Class} {fusion : Bool} {m : Ollir.Method} {n n' : Nat}

/-- The lines of a method are those of the blocks of its listing. -/
theorem emitMethod_eq_ok_iff {lines : List Line} :
    (∃ jm, emitMethod unit fusion m n = .ok (jm, n') ∧ jm.lines = lines)
      ↔ ∃ blocks, Emitter.EmitsEach ⟨unit, m.vars, fusion⟩ m.listing n blocks n'
        ∧ lines = blocks.flatten.map Step.line := by
  constructor
  · rintro ⟨jm, h, rfl⟩
    obtain ⟨steps, hsteps, hlines, _⟩ := emitMethod_eq_ok h
    obtain ⟨blocks, hblocks, rfl⟩ := Emitter.items_eq_ok_iff.mp hsteps
    exact ⟨blocks, hblocks, hlines⟩
  · rintro ⟨blocks, hblocks, rfl⟩
    exact ⟨_, Emit.bind_eq_ok_iff.mpr ⟨_, _, Emitter.items_eq_ok_iff.mpr ⟨blocks, hblocks, rfl⟩,
      Emit.pure_eq_ok_iff.mpr ⟨rfl, rfl⟩⟩, rfl⟩

theorem emitMethod_eq_error_iff {fault : Fault} : emitMethod unit fusion m n = .error fault
    ↔ ∃ before item after blocks n', m.listing = before ++ item :: after
      ∧ Emitter.EmitsEach ⟨unit, m.vars, fusion⟩ before n blocks n'
      ∧ Emitter.item ⟨unit, m.vars, fusion⟩ item n' = .error fault := by
  rw [← Emitter.items_eq_error_iff, emitMethod, Emit.bind_eq_error_iff]
  exact or_iff_left fun ⟨_, _, _, hpure⟩ ↦ nomatch hpure

end emitMethod

end Jasmin

open Ollir (Method Edit Item)

/-- **Labels and instructions keep their order.**  Whatever edits are made to a method without code,
the walk over its indices meets all that they added, in the order in which it was added.  Its text
has a line for each of them, in that order.  Its assembly has a block of lines for each of them, in
that order, and if there is none, this is for the first one that cannot be emitted. -/
theorem edited_methods_keep_order (start : Method) (edits : List Edit) :
    let m := Method.edit { start with instrs := [], labels := [] } edits
    let added := edits.flatMap Edit.added
    m.walk = added
      ∧ m.text = start.header ++ String.join (added.map Item.text) ++ "\x7d\n"
      ∧ ∀ (unit : Ollir.Class) (fusion : Bool) (n : Nat),
        let e : Jasmin.Emitter := ⟨unit, start.vars, fusion⟩
        (∀ lines n', (∃ jm, Jasmin.emitMethod unit fusion m n = .ok (jm, n') ∧ jm.lines = lines)
            ↔ ∃ blocks, e.EmitsEach added n blocks n'
              ∧ lines = blocks.flatten.map Jasmin.Step.line)
          ∧ ∀ fault, Jasmin.emitMethod unit fusion m n = .error fault
            ↔ ∃ before item after blocks n', added = before ++ item :: after
              ∧ e.EmitsEach before n blocks n' ∧ e.item item n' = .error fault := by
  intro m added
  have hm : m = Method.extend { start with instrs := [], labels := [] } added :=
    Method.edit_eq_extend _ edits
  have hlisting : m.listing = added := by
    rw [hm]
    exact Method.listing_extend rfl rfl added
  have hheader : m.header = start.header := by
    rw [hm, Method.extend_eq]
    rfl
  have hvars : m.vars = start.vars := by rw [hm, Method.extend_eq]
  refine ⟨?_, ?_, fun unit fusion n ↦ ⟨fun lines n' ↦ ?_, fun fault ↦ ?_⟩⟩
  · rw [Method.walk_eq_listing, hlisting]
  · rw [Method.text, hlisting, hheader]
  · rw [Jasmin.emitMethod_eq_ok_iff, hlisting, hvars]
  · rw [Jasmin.emitMethod_eq_error_iff, hlisting, hvars]

-- two labels before one instruction, one of them placed again at the end
example :
    (Method.edit { name := "m", returns := .void }
        [.push (.goto "end"), .placeLabel "top",
          .extend [.label "end", .instr (.ret .void none)], .placeLabel "top"]).walk
      = [.instr (.goto "end"), .label "top", .label "end", .instr (.ret .void none),
          .label "top"] := by
  decide

end Jmm
