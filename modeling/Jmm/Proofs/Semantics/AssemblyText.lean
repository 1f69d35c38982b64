import Jmm.Jasmin.Op
import Mathlib.Data.List.Basic

/-!
# Reading assembly

How the text of a line is read.  A line that is indented holds an operation, and one that ends in a
colon a label.  The first word of an operation is its mnemonic (`Op.ofMnemonic`, `Op.ofOperand`);
what an operand means depends on it.

A call names the class up to the last slash before the parenthesis, so that a method with a slash or
a parenthesis in its name would be read as another one, and the same holds of blanks in the names of
fields and of semicolons in paths.  Where names are plain in this sense (`Line.HasPlainNames`),
which only lines with names have to meet, **every line is read as what it was written for**
(`Line.read_text`).
-/

set_option autoImplicit false

namespace Jmm.Jasmin

/-! ## Cutting text -/

/-- What stands before the first occurrence of a character, and what stands after it. -/
def cut (c : Char) : List Char → Option (List Char × List Char)
  | [] => none
  | d :: cs => if d = c then some ([], cs) else (cut c cs).map fun p ↦ (d :: p.1, p.2)

/-- What stands before the last occurrence of a character, and what stands after it. -/
def cutLast (c : Char) (cs : List Char) : Option (List Char × List Char) :=
  (cut c cs.reverse).map fun p ↦ (p.2.reverse, p.1.reverse)

theorem cut_eq_none {c : Char} {cs : List Char} (h : c ∉ cs) : cut c cs = none := by
  induction cs with
  | nil => rfl
  | cons d cs ih =>
    rw [List.mem_cons, not_or] at h
    rw [cut, if_neg (Ne.symm h.1), ih h.2]
    rfl

theorem cut_append {c : Char} {before : List Char} (h : c ∉ before) (after : List Char) :
    cut c (before ++ c :: after) = some (before, after) := by
  induction before with
  | nil => exact if_pos rfl
  | cons d before ih =>
    rw [List.mem_cons, not_or] at h
    rw [List.cons_append, cut, if_neg (Ne.symm h.1), ih h.2]
    rfl

theorem cutLast_append {c : Char} {after : List Char} (h : c ∉ after) (before : List Char) :
    cutLast c (before ++ c :: after) = some (before, after) := by
  have hreverse : (before ++ c :: after).reverse = after.reverse ++ c :: before.reverse := by simp
  rw [cutLast, hreverse, cut_append (by simpa using h)]
  simp

/-- What a cut leaves is shorter. -/
theorem length_of_cut {c : Char} {cs before after : List Char}
    (h : cut c cs = some (before, after)) : after.length < cs.length := by
  induction cs generalizing before with
  | nil => cases h
  | cons d cs ih =>
    rw [cut] at h
    split at h
    · obtain ⟨_, rfl⟩ := Prod.mk.inj (Option.some.inj h)
      exact Nat.lt_succ_self _
    · obtain ⟨⟨first, rest⟩, hcut, hpair⟩ := Option.map_eq_some_iff.mp h
      obtain ⟨_, rfl⟩ := Prod.mk.inj hpair
      exact Nat.lt_succ_of_lt (ih hcut)

/-! ## Numbers -/

/-- A natural number in decimal. -/
def readNat (cs : List Char) : Option Nat :=
  if !cs.isEmpty && cs.all Char.isDigit then some (Nat.ofDigitChars 10 cs 0) else none

/-- An integer in decimal, with a minus sign if it is negative. -/
def readInt : List Char → Option Int
  | '-' :: cs => (readNat cs).map fun n ↦ -Int.ofNat n
  | cs => (readNat cs).map Int.ofNat

/-- An integer between two bounds. -/
def readWithin (low high : Int) (cs : List Char) : Option Int32 :=
  (readInt cs).bind fun n ↦ if low ≤ n ∧ n ≤ high then some (Int32.ofInt n) else none

/-- A 32-bit integer. -/
def readInt32 : List Char → Option Int32 := readWithin Int32.minValue.toInt Int32.maxValue.toInt

theorem readNat_toString (n : Nat) : readNat (toString n).toList = some n := by
  have hdigits : (Nat.toDigits 10 n).all Char.isDigit = true :=
    List.all_eq_true.mpr fun c ↦ Nat.isDigit_of_mem_toDigits (by decide) (by decide)
  have hsome : (Nat.toDigits 10 n).isEmpty = false :=
    List.isEmpty_eq_false_iff.mpr Nat.toDigits_ne_nil
  rw [Nat.toString_eq_repr, Nat.toList_repr, readNat, hdigits, hsome]
  exact congrArg some Nat.ofDigitChars_ten_toDigits

theorem readInt_toString (i : Int) : readInt (toString i).toList = some i := by
  cases i with
  | ofNat n =>
    have hread : readNat (toString (Int.ofNat n)).toList = some n := readNat_toString n
    -- a minus sign is no digit
    cases htext : (toString (Int.ofNat n)).toList with
    | nil =>
      rw [htext] at hread
      cases hread
    | cons c cs =>
      rw [htext] at hread
      by_cases hc : c = '-'
      · subst hc
        have hsign : readNat ('-' :: cs) = none := rfl
        rw [hsign] at hread
        cases hread
      · rw [readInt, hread]
        · rfl
        · rintro cs' ⟨⟩
          exact hc rfl
  | negSucc n =>
    have htext : (toString (Int.negSucc n)).toList = '-' :: (toString (n + 1)).toList :=
      String.toList_append
    rw [htext, readInt, readNat_toString]
    rfl

theorem readWithin_toString {low high : Int} {n : Int32} (h : low ≤ n.toInt ∧ n.toInt ≤ high) :
    readWithin low high (toString n.toInt).toList = some n := by
  rw [readWithin, readInt_toString, Option.bind_some, if_pos h, Int32.ofInt_toInt]

theorem readInt32_toString (n : Int32) : readInt32 (toString n.toInt).toList = some n :=
  readWithin_toString ⟨n.minValue_le_toInt, n.toInt_le⟩

/-! ## Descriptors -/

namespace Descriptor

/-- The descriptor at the start of a text, and what follows it. -/
def read : List Char → Option (Descriptor × List Char)
  | 'I' :: cs => some (int, cs)
  | 'Z' :: cs => some (boolean, cs)
  | 'V' :: cs => some (void, cs)
  | 'L' :: cs => (cut ';' cs).map fun p ↦ (object (String.ofList p.1), p.2)
  | '[' :: cs => (read cs).map fun p ↦ (array p.1, p.2)
  | _ => none

theorem length_of_read {cs rest : List Char} {d : Descriptor} (h : read cs = some (d, rest)) :
    rest.length < cs.length := by
  fun_induction read cs generalizing d with
  | case4 cs =>
    obtain ⟨⟨path, after⟩, hcut, hpair⟩ := Option.map_eq_some_iff.mp h
    obtain ⟨_, rfl⟩ := Prod.mk.inj hpair
    exact Nat.lt_succ_of_lt (length_of_cut hcut)
  | case5 cs ih =>
    obtain ⟨⟨element, after⟩, hread, hpair⟩ := Option.map_eq_some_iff.mp h
    obtain ⟨_, rfl⟩ := Prod.mk.inj hpair
    exact Nat.lt_succ_of_lt (ih hread)
  | case6 => cases h
  | _ =>
    obtain ⟨_, rfl⟩ := Prod.mk.inj (Option.some.inj h)
    exact Nat.lt_succ_self _

/-- The descriptors up to a closing parenthesis, and what follows it. -/
def readList (cs : List Char) : Option (List Descriptor × List Char) :=
  match _hread : read cs with
  | some (d, rest) => (readList rest).map fun p ↦ (d :: p.1, p.2)
  | none => if cs.head? = some ')' then some ([], cs.tail) else none
termination_by cs.length
decreasing_by exact length_of_read _hread

/-- The paths of classes in a descriptor have no semicolon. -/
def HasPlainPaths : Descriptor → Prop
  | object path => ';' ∉ path.toList
  | array element => element.HasPlainPaths
  | int | boolean | void => True

instance decidableHasPlainPaths : (d : Descriptor) → Decidable d.HasPlainPaths
  | object path => inferInstanceAs (Decidable (';' ∉ path.toList))
  | array element => decidableHasPlainPaths element
  | int | boolean | void => inferInstanceAs (Decidable True)

theorem read_text {d : Descriptor} (h : d.HasPlainPaths) (rest : List Char) :
    read (d.text.toList ++ rest) = some (d, rest) := by
  induction d with
  | object path =>
    have htext : (object path).text.toList ++ rest = 'L' :: (path.toList ++ ';' :: rest) := by
      simp [text]
    rw [htext, read, cut_append h, Option.map_some, String.ofList_toList]
  | array element ih =>
    have htext : (array element).text.toList ++ rest = '[' :: (element.text.toList ++ rest) := by
      simp [text]
    rw [htext, read, ih h]
    rfl
  | _ => rfl

theorem readList_text {ds : List Descriptor} (h : ∀ d ∈ ds, d.HasPlainPaths) (rest : List Char) :
    readList ((String.join (ds.map text)).toList ++ ')' :: rest) = some (ds, rest) := by
  induction ds with
  | nil =>
    rw [readList]
    rfl
  | cons d ds ih =>
    obtain ⟨hd, hds⟩ := List.forall_mem_cons.mp h
    have htext : (String.join ((d :: ds).map text)).toList ++ ')' :: rest
        = d.text.toList ++ ((String.join (ds.map text)).toList ++ ')' :: rest) := by
      simp
    rw [htext, readList]
    split
    · rename_i d' rest' hread
      rw [read_text hd] at hread
      obtain ⟨rfl, rfl⟩ := Prod.mk.inj (Option.some.inj hread)
      rw [ih hds]
      rfl
    · rename_i hread
      rw [read_text hd] at hread
      cases hread

end Descriptor

namespace MethodDescriptor

/-- The descriptor of a method, from what follows its opening parenthesis. -/
def read (cs : List Char) : Option MethodDescriptor :=
  (Descriptor.readList cs).bind fun p ↦
    (Descriptor.read p.2).bind fun q ↦ if q.2 = [] then some ⟨p.1, q.1⟩ else none

/-- The paths of classes in the descriptor have no semicolon. -/
def HasPlainPaths (d : MethodDescriptor) : Prop :=
  (∀ p ∈ d.params, p.HasPlainPaths) ∧ d.result.HasPlainPaths

instance (d : MethodDescriptor) : Decidable d.HasPlainPaths :=
  inferInstanceAs (Decidable (_ ∧ _))

theorem toList_text (d : MethodDescriptor) :
    d.text.toList
      = '(' :: ((String.join (d.params.map Descriptor.text)).toList
        ++ ')' :: d.result.text.toList) := by
  simp [text]

theorem read_text {d : MethodDescriptor} (h : d.HasPlainPaths) :
    read ((String.join (d.params.map Descriptor.text)).toList ++ ')' :: d.result.text.toList)
      = some d := by
  have hresult : Descriptor.read d.result.text.toList = some (d.result, []) := by
    rw [← List.append_nil d.result.text.toList]
    exact Descriptor.read_text h.2 []
  rw [read, Descriptor.readList_text h.1, Option.bind_some, hresult]
  rfl

end MethodDescriptor

/-! ## Operations -/

namespace Op

/-- The operations that have no operand. -/
def ofMnemonic : String → Option Op
  | "iconst_m1" => some (.const (-1))
  | "iconst_0" => some (.const 0)
  | "iconst_1" => some (.const 1)
  | "iconst_2" => some (.const 2)
  | "iconst_3" => some (.const 3)
  | "iconst_4" => some (.const 4)
  | "iconst_5" => some (.const 5)
  | "iload_0" => some (.load .int 0)
  | "iload_1" => some (.load .int 1)
  | "iload_2" => some (.load .int 2)
  | "iload_3" => some (.load .int 3)
  | "aload_0" => some (.load .reference 0)
  | "aload_1" => some (.load .reference 1)
  | "aload_2" => some (.load .reference 2)
  | "aload_3" => some (.load .reference 3)
  | "istore_0" => some (.store .int 0)
  | "istore_1" => some (.store .int 1)
  | "istore_2" => some (.store .int 2)
  | "istore_3" => some (.store .int 3)
  | "astore_0" => some (.store .reference 0)
  | "astore_1" => some (.store .reference 1)
  | "astore_2" => some (.store .reference 2)
  | "astore_3" => some (.store .reference 3)
  | "iaload" => some (.arrayLoad .int)
  | "baload" => some (.arrayLoad .boolean)
  | "aaload" => some (.arrayLoad .reference)
  | "iastore" => some (.arrayStore .int)
  | "bastore" => some (.arrayStore .boolean)
  | "aastore" => some (.arrayStore .reference)
  | "iadd" => some (.arith .add)
  | "isub" => some (.arith .sub)
  | "imul" => some (.arith .mul)
  | "idiv" => some (.arith .div)
  | "iand" => some (.arith .and)
  | "ior" => some (.arith .or)
  | "ixor" => some (.arith .xor)
  | "arraylength" => some .arrayLength
  | "pop" => some .pop
  | "return" => some (.ret .void)
  | "ireturn" => some (.ret .int)
  | "areturn" => some (.ret .reference)
  | _ => none

/-- The operand of a call: the class, the method after the last slash, and the descriptor. -/
def readInvoke (how : Invocation) (cs : List Char) : Option Op :=
  (cut '(' cs).bind fun p ↦ (cutLast '/' p.1).bind fun q ↦
    (MethodDescriptor.read p.2).map (.invoke how (String.ofList q.1) (String.ofList q.2))

/-- The operand of an access to a field: the class, the field after the last slash, and after a
blank the descriptor. -/
def readField (access : String → String → Descriptor → Op) (cs : List Char) : Option Op :=
  (cut ' ' cs).bind fun p ↦ (cutLast '/' p.1).bind fun q ↦ (Descriptor.read p.2).bind fun d ↦
    if d.2 = [] then some (access (String.ofList q.1) (String.ofList q.2) d.1) else none

/-- The operands of an increment: a slot and a step. -/
def readIncrement (cs : List Char) : Option Op :=
  (cut ' ' cs).bind fun p ↦ (readNat p.1).bind fun slot ↦ (readInt32 p.2).map (.increment slot)

/-- The operations that have an operand. -/
def ofOperand (operand : List Char) : String → Option Op
  | "bipush" => (readWithin (-128) 127 operand).map .const
  | "sipush" => (readWithin (-32768) 32767 operand).map .const
  | "ldc" => (readInt32 operand).map .const
  | "iload" => (readNat operand).map (.load .int)
  | "aload" => (readNat operand).map (.load .reference)
  | "istore" => (readNat operand).map (.store .int)
  | "astore" => (readNat operand).map (.store .reference)
  | "iinc" => readIncrement operand
  | "if_icmplt" => some (.jumpIf .less (String.ofList operand))
  | "ifeq" => some (.jumpIf .zero (String.ofList operand))
  | "ifne" => some (.jumpIf .nonzero (String.ofList operand))
  | "goto" => some (.goto (String.ofList operand))
  | "new" => some (.new (String.ofList operand))
  | "newarray" => if operand = ['i', 'n', 't'] then some .newIntArray else none
  | "invokevirtual" => readInvoke .virtual operand
  | "invokestatic" => readInvoke .static operand
  | "invokespecial" => readInvoke .special operand
  | "getfield" => readField .getField operand
  | "putfield" => readField .putField operand
  | _ => none

/-- An operation, whose mnemonic ends at the first blank. -/
def read (cs : List Char) : Option Op :=
  match cut ' ' cs with
  | none => ofMnemonic (String.ofList cs)
  | some (mnemonic, operand) => ofOperand operand (String.ofList mnemonic)

/-- The names in a call and in an access to a field do not hold the characters that end them. -/
def HasPlainNames : Op → Prop
  | invoke _ owner method d =>
    '(' ∉ owner.toList ∧ '(' ∉ method.toList ∧ '/' ∉ method.toList ∧ d.HasPlainPaths
  | getField owner field d | putField owner field d =>
    ' ' ∉ owner.toList ∧ ' ' ∉ field.toList ∧ '/' ∉ field.toList ∧ d.HasPlainPaths
  | _ => True

instance : (o : Op) → Decidable o.HasPlainNames
  | invoke _ _ _ _ | getField _ _ _ | putField _ _ _ => inferInstanceAs (Decidable (_ ∧ _))
  | const _ | load _ _ | store _ _ | arrayLoad _ | arrayStore _ | increment _ _ | arith _
  | jumpIf _ _ | goto _ | new _ | newIntArray | arrayLength | pop | ret _ =>
    inferInstanceAs (Decidable True)

theorem read_mnemonic {mnemonic : String} (h : ' ' ∉ mnemonic.toList) :
    read mnemonic.toList = ofMnemonic mnemonic := by
  rw [read, cut_eq_none h, String.ofList_toList]

/-- A mnemonic ends at the blank after it. -/
theorem read_operand (mnemonic : String) (operand : List Char) (h : ' ' ∉ mnemonic.toList) :
    read (mnemonic.toList ++ ' ' :: operand) = ofOperand operand mnemonic := by
  rw [read, cut_append h]
  exact congrArg (ofOperand operand) String.ofList_toList

/-- A constant is read from each of its forms. -/
theorem read_constText (value : Int32) : read (constText value).toList = some (.const value) := by
  rw [constText]
  split
  · rename_i h
    obtain rfl : value = -1 := Int32.toInt_inj.mp h
    exact read_mnemonic (by decide)
  · split
    · rename_i h
      have hvalue : value = Int32.ofInt value.toInt := (Int32.ofInt_toInt value).symm
      generalize value.toInt = n at h hvalue
      subst hvalue
      have hcases : n = 0 ∨ n = 1 ∨ n = 2 ∨ n = 3 ∨ n = 4 ∨ n = 5 := by omega
      rcases hcases with rfl | rfl | rfl | rfl | rfl | rfl <;> exact read_mnemonic (by decide)
    · -- the forms that are left have the number as their operand
      have hread (mnemonic : String) (h : ' ' ∉ mnemonic.toList) :
          read (mnemonic.toList ++ [' '] ++ (toString value.toInt).toList)
            = ofOperand (toString value.toInt).toList mnemonic := by
        rw [List.append_assoc]
        exact read_operand mnemonic _ h
      split
      · rw [String.toList_append]
        refine (hread "bipush" (by decide)).trans ?_
        exact congrArg (Option.map const) (readWithin_toString ‹_›)
      · split
        · rw [String.toList_append]
          refine (hread "sipush" (by decide)).trans ?_
          exact congrArg (Option.map const) (readWithin_toString ‹_›)
        · rw [String.toList_append]
          refine (hread "ldc" (by decide)).trans ?_
          exact congrArg (Option.map const) (readInt32_toString value)

/-- A slot is read from both of its forms. -/
theorem read_slotText {mnemonic : String} {op : Nat → Op} (hmnemonic : ' ' ∉ mnemonic.toList)
    (hlong : ∀ cs, ofOperand cs mnemonic = (readNat cs).map op)
    (hshort : ∀ slot < 4, read (mnemonic ++ "_" ++ toString slot).toList = some (op slot))
    (slot : Nat) : read (slotText mnemonic slot).toList = some (op slot) := by
  rw [slotText]
  split
  · exact hshort slot ‹_›
  · have htext : (mnemonic ++ " " ++ toString slot).toList
        = mnemonic.toList ++ ' ' :: (toString slot).toList := by simp
    rw [htext, read_operand mnemonic _ hmnemonic, hlong, readNat_toString]
    rfl

theorem readIncrement_text (slot : Nat) (step : Int32) :
    readIncrement ((toString slot).toList ++ ' ' :: (Text.int32Text step).toList)
      = some (.increment slot step) := by
  have hblank : ' ' ∉ (toString slot).toList := by
    rw [Nat.toString_eq_repr, Nat.toList_repr]
    exact fun h ↦ absurd (Nat.isDigit_of_mem_toDigits (by decide) (by decide) h) (by decide)
  rw [readIncrement, cut_append hblank, Option.bind_some, readNat_toString, Option.bind_some,
    Text.int32Text, readInt32_toString]
  rfl

theorem readInvoke_text {how : Invocation} {owner method : String} {d : MethodDescriptor}
    (h : (invoke how owner method d).HasPlainNames) :
    readInvoke how (owner.toList ++ '/' :: method.toList ++ d.text.toList)
      = some (.invoke how owner method d) := by
  obtain ⟨howner, hmethod, hslash, hpaths⟩ := h
  have hparen : '(' ∉ owner.toList ++ '/' :: method.toList := by
    simp [howner, hmethod]
  rw [readInvoke, d.toList_text, cut_append hparen, Option.bind_some, cutLast_append hslash,
    Option.bind_some, MethodDescriptor.read_text hpaths, String.ofList_toList, String.ofList_toList]
  rfl

theorem readField_text {access : String → String → Descriptor → Op} {owner field : String}
    {d : Descriptor} (howner : ' ' ∉ owner.toList) (hfield : ' ' ∉ field.toList)
    (hslash : '/' ∉ field.toList) (hpaths : d.HasPlainPaths) :
    readField access (owner.toList ++ '/' :: field.toList ++ ' ' :: d.text.toList)
      = some (access owner field d) := by
  have hblank : ' ' ∉ owner.toList ++ '/' :: field.toList := by
    simp [howner, hfield]
  have hread : Descriptor.read d.text.toList = some (d, []) := by
    rw [← List.append_nil d.text.toList]
    exact Descriptor.read_text hpaths []
  rw [readField, cut_append hblank, Option.bind_some, cutLast_append hslash, Option.bind_some,
    hread, String.ofList_toList, String.ofList_toList]
  rfl

/-- **An operation is read as what it was written for.** -/
theorem read_text {o : Op} (h : o.HasPlainNames) : read o.text.toList = some o := by
  cases o with
  | const value => exact read_constText value
  | load family slot =>
    cases family <;> exact read_slotText (by decide) (fun _ ↦ rfl) (by decide) slot
  | store family slot =>
    cases family <;> exact read_slotText (by decide) (fun _ ↦ rfl) (by decide) slot
  | arrayLoad kind => cases kind <;> rfl
  | arrayStore kind => cases kind <;> rfl
  | increment slot step =>
    have htext : (increment slot step).text.toList
        = "iinc".toList ++ ' ' :: ((toString slot).toList
          ++ ' ' :: (Text.int32Text step).toList) := by
      simp [text]
    rw [htext, read_operand "iinc" _ (by decide)]
    exact readIncrement_text slot step
  | arith op => cases op <;> rfl
  | jumpIf test label =>
    have htext : (jumpIf test label).text.toList
        = test.mnemonic.toList ++ ' ' :: label.toList := by simp [text]
    have hlabel : String.ofList label.toList = label := String.ofList_toList
    rw [htext, read_operand test.mnemonic _ (by cases test <;> decide)]
    cases test <;> exact congrArg (fun x ↦ some (jumpIf _ x)) hlabel
  | goto label =>
    have htext : (goto label).text.toList = "goto".toList ++ ' ' :: label.toList := by simp [text]
    rw [htext, read_operand "goto" _ (by decide)]
    exact congrArg (fun x ↦ some (goto x)) String.ofList_toList
  | new path =>
    have htext : (new path).text.toList = "new".toList ++ ' ' :: path.toList := by simp [text]
    rw [htext, read_operand "new" _ (by decide)]
    exact congrArg (fun x ↦ some (new x)) String.ofList_toList
  | newIntArray => rfl
  | arrayLength => rfl
  | invoke how owner method d =>
    have htext : (invoke how owner method d).text.toList = how.mnemonic.toList
        ++ ' ' :: (owner.toList ++ '/' :: method.toList ++ d.text.toList) := by simp [text]
    rw [htext, read_operand how.mnemonic _ (by cases how <;> decide)]
    cases how <;> exact readInvoke_text h
  | getField owner field d =>
    obtain ⟨howner, hfield, hslash, hpaths⟩ := h
    have htext : (getField owner field d).text.toList = "getfield".toList
        ++ ' ' :: (owner.toList ++ '/' :: field.toList ++ ' ' :: d.text.toList) := by simp [text]
    rw [htext, read_operand "getfield" _ (by decide)]
    exact readField_text howner hfield hslash hpaths
  | putField owner field d =>
    obtain ⟨howner, hfield, hslash, hpaths⟩ := h
    have htext : (putField owner field d).text.toList = "putfield".toList
        ++ ' ' :: (owner.toList ++ '/' :: field.toList ++ ' ' :: d.text.toList) := by simp [text]
    rw [htext, read_operand "putfield" _ (by decide)]
    exact readField_text howner hfield hslash hpaths
  | pop => rfl
  | ret kind => cases kind <;> rfl

end Op

/-! ## Lines -/

namespace Line

/-- A line without the break at its end: an operation if it is indented, and a label before a colon
otherwise. -/
def readBody (cs : List Char) : Option Line :=
  if cs.take 3 = [' ', ' ', ' '] then (Op.read (cs.drop 3)).map op
  else (cutLast ':' cs).bind fun p ↦ if p.2 = [] then some (label (String.ofList p.1)) else none

/-- A line. -/
def read (text : String) : Option Line :=
  (cutLast '\n' text.toList).bind fun p ↦ if p.2 = [] then readBody p.1 else none

/-- The names in a line do not hold the characters that end them, and a label is not indented. -/
def HasPlainNames : Line → Prop
  | label name => name.toList.head? ≠ some ' '
  | op o => o.HasPlainNames

instance : (l : Line) → Decidable l.HasPlainNames
  | label name => inferInstanceAs (Decidable (name.toList.head? ≠ some ' '))
  | op o => inferInstanceAs (Decidable o.HasPlainNames)

/-- **A line is read as what it was written for.** -/
theorem read_text {l : Line} (h : l.HasPlainNames) : read l.text = some l := by
  cases l with
  | label name =>
    have htext : (label name).text.toList = (name.toList ++ [':']) ++ ['\n'] := by simp [text]
    have hlabel : (name.toList ++ [':']).take 3 ≠ [' ', ' ', ' '] := by
      cases hname : name.toList with
      | nil => decide
      | cons c cs =>
        rw [HasPlainNames, hname] at h
        exact fun heq ↦ h (congrArg List.head? heq)
    rw [read, htext, cutLast_append List.not_mem_nil, Option.bind_some, if_pos rfl, readBody,
      if_neg hlabel, cutLast_append List.not_mem_nil, Option.bind_some, if_pos rfl,
      String.ofList_toList]
  | op o =>
    have htext : (op o).text.toList = (' ' :: ' ' :: ' ' :: o.text.toList) ++ ['\n'] := by
      simp [text]
    have hbody : readBody (' ' :: ' ' :: ' ' :: o.text.toList) = (Op.read o.text.toList).map op :=
      if_pos rfl
    rw [read, htext, cutLast_append List.not_mem_nil, Option.bind_some, if_pos rfl, hbody,
      Op.read_text h, Option.map_some]

end Line

end Jmm.Jasmin
