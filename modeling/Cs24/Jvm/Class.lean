/-
  Cs24.Jvm.Class — what `execute` reads besides its own frame: the opcode table (jvm.h),
  the class file (read_class.h) and the heap (heap.h), and what every invocation shares.

  None of jvm.h, read_class.c or heap.c is in the repository. The opcode numbers are the
  JVM's (JVMS §7), which the handlers' arithmetic on case labels (`code[pc] - i_iconst_m1 - 1`,
  `code[pc] - i_iload_0`) relies on. `find_method_from_index`, `heap_add` and `heap_get`
  follow the spec's ClassModel and Heap (§2, §6): a method reference resolves to a method
  of the class, the heap is append-only and a handle is an array's position in it.
-/

import Cs24.Jvm.Int32

namespace Cs24.Jvm

/-- The case labels of `execute`'s switch. -/
inductive Opcode where
  | nop
  | iconst_m1 | iconst_0 | iconst_1 | iconst_2 | iconst_3 | iconst_4 | iconst_5
  | bipush | sipush | ldc
  | iload | aload
  | iload_0 | iload_1 | iload_2 | iload_3
  | aload_0 | aload_1 | aload_2 | aload_3
  | iaload
  | istore | astore
  | istore_0 | istore_1 | istore_2 | istore_3
  | astore_0 | astore_1 | astore_2 | astore_3
  | iastore
  | dup
  | iadd | isub | imul | idiv | irem | ineg | ishl | ishr | iushr | iand | ior | ixor
  | iinc
  | ifeq | ifne | iflt | ifge | ifgt | ifle
  | if_icmpeq | if_icmpne | if_icmplt | if_icmpge | if_icmpgt | if_icmple
  | goto
  | ireturn | areturn | return_
  | getstatic | invokevirtual | invokestatic
  | newarray | arraylength
  deriving DecidableEq, Repr

/-- Modelled from the spec: jvm.h is missing; each label's byte is the JVM's opcode. -/
def Opcode.toByte : Opcode → UInt8
  | .nop => 0x00
  | .iconst_m1 => 0x02 | .iconst_0 => 0x03 | .iconst_1 => 0x04 | .iconst_2 => 0x05
  | .iconst_3 => 0x06 | .iconst_4 => 0x07 | .iconst_5 => 0x08
  | .bipush => 0x10 | .sipush => 0x11 | .ldc => 0x12
  | .iload => 0x15 | .aload => 0x19
  | .iload_0 => 0x1a | .iload_1 => 0x1b | .iload_2 => 0x1c | .iload_3 => 0x1d
  | .aload_0 => 0x2a | .aload_1 => 0x2b | .aload_2 => 0x2c | .aload_3 => 0x2d
  | .iaload => 0x2e
  | .istore => 0x36 | .astore => 0x3a
  | .istore_0 => 0x3b | .istore_1 => 0x3c | .istore_2 => 0x3d | .istore_3 => 0x3e
  | .astore_0 => 0x4b | .astore_1 => 0x4c | .astore_2 => 0x4d | .astore_3 => 0x4e
  | .iastore => 0x4f
  | .dup => 0x59
  | .iadd => 0x60 | .isub => 0x64 | .imul => 0x68 | .idiv => 0x6c | .irem => 0x70
  | .ineg => 0x74 | .ishl => 0x78 | .ishr => 0x7a | .iushr => 0x7c
  | .iand => 0x7e | .ior => 0x80 | .ixor => 0x82
  | .iinc => 0x84
  | .ifeq => 0x99 | .ifne => 0x9a | .iflt => 0x9b | .ifge => 0x9c | .ifgt => 0x9d
  | .ifle => 0x9e
  | .if_icmpeq => 0x9f | .if_icmpne => 0xa0 | .if_icmplt => 0xa1 | .if_icmpge => 0xa2
  | .if_icmpgt => 0xa3 | .if_icmple => 0xa4
  | .goto => 0xa7
  | .ireturn => 0xac | .areturn => 0xb0 | .return_ => 0xb1
  | .getstatic => 0xb2 | .invokevirtual => 0xb6 | .invokestatic => 0xb8
  | .newarray => 0xbc | .arraylength => 0xbe

def Opcode.all : List Opcode :=
  [nop, iconst_m1, iconst_0, iconst_1, iconst_2, iconst_3, iconst_4, iconst_5,
   bipush, sipush, ldc, iload, aload, iload_0, iload_1, iload_2, iload_3,
   aload_0, aload_1, aload_2, aload_3, iaload, istore, astore,
   istore_0, istore_1, istore_2, istore_3, astore_0, astore_1, astore_2, astore_3,
   iastore, dup, iadd, isub, imul, idiv, irem, ineg, ishl, ishr, iushr,
   iand, ior, ixor, iinc, ifeq, ifne, iflt, ifge, ifgt, ifle,
   if_icmpeq, if_icmpne, if_icmplt, if_icmpge, if_icmpgt, if_icmple, goto,
   ireturn, areturn, return_, getstatic, invokevirtual, invokestatic,
   newarray, arraylength]

/-- The case label a byte selects; `none` for a byte no case matches (the switch has no
    `default`). -/
def Opcode.ofByte (b : UInt8) : Option Opcode := Opcode.all.find? (·.toByte == b)

theorem Opcode.toByte_of_ofByte {b : UInt8} {op : Opcode} (h : Opcode.ofByte b = some op) :
    op.toByte = b := by
  simpa using List.find?_some h

@[simp] theorem Opcode.ofByte_toByte (op : Opcode) : Opcode.ofByte op.toByte = some op := by
  cases op <;> rfl

/-! ## The class file -/

/-- A constant-pool slot as `execute` reads it. -/
inductive CpInfo where
  /-- `CONSTANT_Integer_info`, whose `bytes` `ldc` pushes. -/
  | integer (bytes : BitVec 32)
  /-- A method reference, naming the method's position in the class. -/
  | methodref (method : Nat)
  | other
  deriving DecidableEq, Repr

/-- `method_t`: its `code` attribute and what its descriptor says. -/
structure Method where
  /-- `code.code`; `code.code_length` is its length. -/
  code : List UInt8
  maxStack : Nat
  maxLocals : Nat
  /-- `get_number_of_parameters(method)`. -/
  parameters : Nat
  /-- The descriptor's return type is not `V`. -/
  returnsValue : Bool
  deriving DecidableEq, Repr

structure ClassFile where
  constantPool : List CpInfo
  methods : List Method
  deriving DecidableEq, Repr

/-- Modelled from the spec: read_class.c is missing. `find_method_from_index(index, class)`
    resolves the (1-based) constant-pool slot `index` to a method of the class. -/
def findMethodFromIndex (index : Nat) (cls : ClassFile) : Option Method :=
  match index with
  | 0 => none
  | i + 1 =>
    match cls.constantPool[i]? with
    | some (.methodref k) => cls.methods[k]?
    | _ => none

theorem findMethodFromIndex_mem {index : Nat} {cls : ClassFile} {m : Method}
    (h : findMethodFromIndex index cls = some m) : m ∈ cls.methods := by
  unfold findMethodFromIndex at h
  split at h
  · cases h
  · split at h
    · exact List.mem_iff_getElem?.mpr ⟨_, h⟩
    · cases h

/-- `((CONSTANT_Integer_info *) class->constant_pool[b - 1].info)->bytes`: undefined unless
    slot `b - 1` is an integer constant. -/
def integerConstant (cls : ClassFile) (b : Nat) : Except Fault (BitVec 32) :=
  match b with
  | 0 => .error (.undefined .constantPool)
  | i + 1 =>
    match cls.constantPool[i]? with
    | some (.integer v) => .ok v
    | _ => .error (.undefined .constantPool)

/-! ## What every invocation shares -/

/-- What a run writes: the lines `invokevirtual` prints and, as ghost entries the loop
    records, every access an array instruction made (by handle). -/
inductive Event where
  | print (v : BitVec 32)
  | newarray (h : Nat) (count : BitVec 32)
  | iastore (h : Nat) (index value : BitVec 32)
  | iaload (h : Nat) (index value : BitVec 32)
  | arraylength (h : Nat) (length : BitVec 32)
  deriving DecidableEq, Repr

/-- The heap's arrays, in allocation order, and the run's log. -/
structure Glob where
  heap : List (List (BitVec 32))
  log : List Event
  deriving DecidableEq, Repr

/-- Modelled from the spec: heap.c is missing. `heap_add(heap, arr)` appends `arr` and
    returns its handle, its position. -/
def heapAdd (heap : List (List (BitVec 32))) (arr : List (BitVec 32)) :
    List (List (BitVec 32)) × BitVec 32 :=
  (heap ++ [arr], BitVec.ofNat 32 heap.length)

/-- Modelled from the spec: heap.c is missing. `heap_get(heap, ref)`: the array `ref`
    names; a handle `heap_add` never returned is undefined. -/
def heapGet (heap : List (List (BitVec 32))) (ref : BitVec 32) : Except Fault (List (BitVec 32)) :=
  if 0 ≤ ref.toInt then
    match heap[ref.toNat]? with
    | some arr => .ok arr
    | none => .error (.undefined .heap)
  else .error (.undefined .heap)

inductive Ending where
  /-- It returned: `none` is `has_value = false`. -/
  | returned (v : Option (BitVec 32))
  | fault (f : Fault)
  /-- The model's fuel ran out first. -/
  | outOfFuel
  deriving DecidableEq, Repr

end Cs24.Jvm
