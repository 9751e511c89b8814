/-
  Cs24.Jvm.Int32 — `int32_t` arithmetic as `execute` (jvm.c) evaluates it, next to the
  JVM's.

  Operand-stack slots, locals and heap-array slots hold `int32_t`: `BitVec 32`, read
  signed through `toInt`. A C expression of type `int` has its mathematical value when
  that fits in 32 bits and is undefined otherwise (C11 6.5p5): `intResult`. The handlers'
  expressions (`cAdd` ... `cUshr`) add the C rules for `/`, `%` and the shifts.
  Conversions C leaves implementation-defined (a wider or unsigned value to `int32_t`,
  `>>` of a negative value) are taken as GCC does them: modulo 2^32, arithmetic shift.

  The JVM's integer instructions never fail on overflow: each result is the low 32 bits
  of the mathematical one (`jvmAdd` ... `jvmUshr`, JVMS §6.5).
  Proved: where the C expression is defined it is the JVM's result (`cAdd_eq_ok` ...),
  and `tdiv_inRange_iff`: `a / b` is defined for every nonzero `b` except
  `INT32_MIN / -1`.
-/

import Mathlib.Algebra.Group.Int
import Mathlib.Data.Nat.Defs

namespace Cs24.Jvm

/-- What makes a step of `execute` undefined in C. -/
inductive UB where
  | signedOverflow
  | divisionByZero
  | shift
  | operandStack
  | locals
  | code
  | constantPool
  | heap
  deriving DecidableEq, Repr

/-- How a call of `execute` stops short of returning. -/
inductive Fault where
  /-- An `assert` fails and aborts the process. -/
  | assertion
  /-- `find_method_from_index` names no method of the class (fatal, spec §7). -/
  | resolution
  | undefined (ub : UB)
  deriving DecidableEq, Repr

def InRange (x : Int) : Prop := -2 ^ 31 ≤ x ∧ x < 2 ^ 31

instance (x : Int) : Decidable (InRange x) := inferInstanceAs (Decidable (_ ∧ _))

def wrap (x : Int) : BitVec 32 := BitVec.ofInt 32 x

/-- The `int32_t` a C `int` expression of mathematical value `x` evaluates to. -/
def intResult (x : Int) : Except Fault (BitVec 32) :=
  if InRange x then .ok (wrap x) else .error (.undefined .signedOverflow)

theorem toInt_inRange (a : BitVec 32) : InRange a.toInt := by
  have := a.isLt
  simp only [InRange, BitVec.toInt_eq_toNat_cond]
  split <;> omega

theorem toInt_wrap {x : Int} (h : InRange x) : (wrap x).toInt = x := by
  simp only [wrap, BitVec.toInt_ofInt, Int.bmod_def]
  unfold InRange at h
  split <;> omega

@[simp] theorem wrap_toInt (a : BitVec 32) : wrap a.toInt = a :=
  BitVec.eq_of_toInt_eq (toInt_wrap (toInt_inRange a))

theorem intResult_of_inRange {x : Int} (h : InRange x) : intResult x = .ok (wrap x) := if_pos h

theorem intResult_of_not_inRange {x : Int} (h : ¬ InRange x) :
    intResult x = .error (.undefined .signedOverflow) := if_neg h

theorem toNat_eq_toInt {b : BitVec 32} (h : 0 ≤ b.toInt) : (b.toNat : Int) = b.toInt := by
  have := b.isLt
  rw [BitVec.toInt_eq_toNat_cond] at h ⊢
  split at h <;> simp_all; omega

theorem toInt_ne_zero {b : BitVec 32} (h : b ≠ 0) : b.toInt ≠ 0 :=
  fun h' => h (BitVec.eq_of_toInt_eq (by simpa using h'))

theorem natAbs_tmod (x y : Int) : (x.tmod y).natAbs = x.natAbs % y.natAbs := by
  cases x <;> cases y <;>
    simp only [Int.tmod, Int.natAbs_neg, Int.natAbs_ofNat, Int.natAbs_negSucc, ← Int.ofNat_emod] <;> rfl

/-- A C remainder of two `int32_t`s always fits. -/
theorem tmod_inRange (a : BitVec 32) {b : BitVec 32} (hb : b.toInt ≠ 0) :
    InRange (a.toInt.tmod b.toInt) := by
  have := natAbs_tmod a.toInt b.toInt
  have := Nat.mod_lt a.toInt.natAbs (by omega : 0 < b.toInt.natAbs)
  have := toInt_inRange b
  unfold InRange at *
  omega

/-- A count a shift is defined for: non-negative and below 32. -/
def ShiftCount (b : BitVec 32) : Prop := 0 ≤ b.toInt ∧ b.toInt < 32

instance (b : BitVec 32) : Decidable (ShiftCount b) := inferInstanceAs (Decidable (_ ∧ _))

theorem ShiftCount.toNat_mod {b : BitVec 32} (h : ShiftCount b) : b.toNat % 32 = b.toNat := by
  have := toNat_eq_toInt h.1
  exact Nat.mod_eq_of_lt (by have := h.2; omega)

/-! ## The handlers' C expressions -/

def cAdd (a b : BitVec 32) : Except Fault (BitVec 32) := intResult (a.toInt + b.toInt)

def cSub (a b : BitVec 32) : Except Fault (BitVec 32) := intResult (a.toInt - b.toInt)

def cMul (a b : BitVec 32) : Except Fault (BitVec 32) := intResult (a.toInt * b.toInt)

/-- `a / b`, truncating: undefined for a zero divisor and where the quotient does not fit. -/
def cDiv (a b : BitVec 32) : Except Fault (BitVec 32) :=
  if b = 0 then .error (.undefined .divisionByZero) else intResult (a.toInt.tdiv b.toInt)

/-- `a % b`: undefined exactly where `a / b` is (C11 6.5.5p6). -/
def cRem (a b : BitVec 32) : Except Fault (BitVec 32) := do
  let _ ← cDiv a b
  intResult (a.toInt.tmod b.toInt)

/-- `a << b`: undefined for a count outside [0, 32), a negative `a`, or a product that
    does not fit (C11 6.5.7p3-4). -/
def cShl (a b : BitVec 32) : Except Fault (BitVec 32) :=
  if ShiftCount b ∧ 0 ≤ a.toInt then intResult (a.toInt * 2 ^ b.toNat)
  else .error (.undefined .shift)

/-- `a >> b`: undefined for a count outside [0, 32). -/
def cShr (a b : BitVec 32) : Except Fault (BitVec 32) :=
  if ShiftCount b then .ok (wrap (a.toInt / 2 ^ b.toNat))
  else .error (.undefined .shift)

/-- `(unsigned) a >> b`, converted back to `int32_t` by `stack_help`'s parameter. -/
def cUshr (a b : BitVec 32) : Except Fault (BitVec 32) :=
  if ShiftCount b then .ok (BitVec.ofNat 32 (a.toNat / 2 ^ b.toNat))
  else .error (.undefined .shift)

/-! ## The JVM's results -/

def jvmAdd (a b : BitVec 32) : BitVec 32 := wrap (a.toInt + b.toInt)

def jvmSub (a b : BitVec 32) : BitVec 32 := wrap (a.toInt - b.toInt)

def jvmMul (a b : BitVec 32) : BitVec 32 := wrap (a.toInt * b.toInt)

/-- Truncating division; `INT32_MIN / -1` overflows to `INT32_MIN`. -/
def jvmDiv (a b : BitVec 32) : BitVec 32 := wrap (a.toInt.tdiv b.toInt)

/-- `value1 - (value1 / value2) * value2`, with the JVM's division. -/
def jvmRem (a b : BitVec 32) : BitVec 32 := wrap (a.toInt - (jvmDiv a b).toInt * b.toInt)

def jvmNeg (a : BitVec 32) : BitVec 32 := wrap (-a.toInt)

/-- The shifts use the low five bits of the count. -/
def jvmShl (a b : BitVec 32) : BitVec 32 := wrap (a.toInt * 2 ^ (b.toNat % 32))

def jvmShr (a b : BitVec 32) : BitVec 32 := wrap (a.toInt / 2 ^ (b.toNat % 32))

def jvmUshr (a b : BitVec 32) : BitVec 32 := BitVec.ofNat 32 (a.toNat / 2 ^ (b.toNat % 32))

/-! ## Where the C expression is defined, it is the JVM's result -/

theorem cAdd_eq_ok {a b : BitVec 32} (h : InRange (a.toInt + b.toInt)) :
    cAdd a b = .ok (jvmAdd a b) := intResult_of_inRange h

theorem cSub_eq_ok {a b : BitVec 32} (h : InRange (a.toInt - b.toInt)) :
    cSub a b = .ok (jvmSub a b) := intResult_of_inRange h

theorem cMul_eq_ok {a b : BitVec 32} (h : InRange (a.toInt * b.toInt)) :
    cMul a b = .ok (jvmMul a b) := intResult_of_inRange h

theorem cDiv_eq_ok {a b : BitVec 32} (hb : b ≠ 0) (h : InRange (a.toInt.tdiv b.toInt)) :
    cDiv a b = .ok (jvmDiv a b) := by
  rw [cDiv, if_neg hb, intResult_of_inRange h, jvmDiv]

theorem cRem_eq_ok {a b : BitVec 32} (hb : b ≠ 0) (h : InRange (a.toInt.tdiv b.toInt)) :
    cRem a b = .ok (jvmRem a b) := by
  have hq : (jvmDiv a b).toInt = a.toInt.tdiv b.toInt := toInt_wrap h
  rw [cRem, cDiv_eq_ok hb h]
  show intResult _ = _
  rw [intResult_of_inRange (tmod_inRange a (toInt_ne_zero hb)),
    jvmRem, hq, Int.tmod_def, Int.mul_comm]

theorem cShl_eq_ok {a b : BitVec 32} (hb : ShiftCount b) (ha : 0 ≤ a.toInt)
    (h : InRange (a.toInt * 2 ^ b.toNat)) : cShl a b = .ok (jvmShl a b) := by
  rw [cShl, if_pos ⟨hb, ha⟩, intResult_of_inRange h, jvmShl, hb.toNat_mod]

theorem cShr_eq_ok {a b : BitVec 32} (hb : ShiftCount b) : cShr a b = .ok (jvmShr a b) := by
  rw [cShr, if_pos hb, jvmShr, hb.toNat_mod]

theorem cUshr_eq_ok {a b : BitVec 32} (hb : ShiftCount b) : cUshr a b = .ok (jvmUshr a b) := by
  rw [cUshr, if_pos hb, jvmUshr, hb.toNat_mod]

/-- Truncating division of two `int32_t`s fits, except `INT32_MIN / -1`. -/
theorem tdiv_inRange_iff (a : BitVec 32) {b : BitVec 32} (hb : b.toInt ≠ 0) :
    InRange (a.toInt.tdiv b.toInt) ↔ ¬ (a.toInt = -2 ^ 31 ∧ b.toInt = -1) := by
  have ha := toInt_inRange a
  have hb' := toInt_inRange b
  unfold InRange at *
  by_cases h1 : b.toInt = 1
  · rw [h1, Int.tdiv_one]; omega
  by_cases h2 : b.toInt = -1
  · rw [h2, Int.tdiv_neg, Int.tdiv_one]; omega
  have hq := Int.natAbs_tdiv a.toInt b.toInt
  have : a.toInt.natAbs.div b.toInt.natAbs ≤ a.toInt.natAbs / 2 :=
    Nat.div_le_div_left (by omega) (by omega)
  omega

end Cs24.Jvm
