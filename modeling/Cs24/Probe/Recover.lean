/-
  Cs24.Probe.Recover — the cache-timing probe of recover_protected_local_secret.c: `main`
  recovers `SECRET_LENGTH` bytes of a protected secret through the cache.

  For each byte, a pass of the `while (1)` loop flushes the pages `MIN_CHOICE` to
  `MAX_CHOICE`, reads the secret byte and then `pages[byte]` (`do_access`: the read
  faults, and the `SIGSEGV` handler resumes at `label`), and takes the first page of
  that range whose read is fast twice (`guess_accessed_page`, 0 if none is). A guess
  strictly between `MIN_CHOICE` and `MAX_CHOICE` is printed and ends the loop. util.h is
  not in the repository: what its helpers do to the machine is a parameter (`Machine`).
  `fuel` bounds the passes of the `while (1)` loop for each byte.

  Proved:
  - `main_recovers_secret`: on an ideal cache (a read of a cached page is fast, of any
    other slow, and the faulting access leaves its page cached), `main` prints the
    secret when all its bytes are capitals and loops forever at the first that is not:
    the guess is then 0, or `MIN_CHOICE` or `MAX_CHOICE`, which the loop scans but never
    prints.
-/

import Mathlib.Logic.Function.Basic

namespace Cs24.Probe

-- `MIN_CHOICE` is `'A' - 1` and `MAX_CHOICE` is `'Z' + 1`.
def minChoice : Nat := 0x41 - 1

def maxChoice : Nat := 0x5A + 1

def secretLength : Nat := 5

/-- `THRESHOLD`: a read faster than this many cycles is taken to hit the cache. -/
def threshold : Nat := 200

/-- The pages `i = MIN_CHOICE, ..., MAX_CHOICE` of the loops of `flush_all_pages` and
    `guess_accessed_page`. -/
def choices : List Nat := List.range' minChoice (maxChoice + 1 - minChoice)

/-- Modelled from the spec: util.h is missing, and the spec leaves the probe out of its scope,
    so what its helpers do to the machine's state `σ` (caches, timers) is left open. -/
structure Machine (σ : Type) where
  /-- `flush_cache_line(&pages[i])`. -/
  flushCacheLine : Nat → σ → σ
  /-- `time_read(&pages[i])`: the cycles the read takes, and the state after it. -/
  timeRead : Nat → σ → Nat × σ
  /-- `cache_secret()`. -/
  cacheSecret : σ → σ
  /-- `force_read(pages[access_secret(i)])`: the access of secret byte `i` faults, and the
      handler resumes at `label`; what the read of its page left behind stays. -/
  accessSecret : Nat → σ → σ

/-- What `main` printed: all of it when it ended, or what it printed before the fuel ran
    out in a `while (1)` loop. -/
inductive Run where
  | finished (out : List UInt8)
  | outOfFuel (out : List UInt8)
  deriving DecidableEq, Repr

section Probe

variable {σ : Type} (M : Machine σ)

def flushAllPages (s : σ) : σ := choices.foldl (fun s i => M.flushCacheLine i s) s

def doAccess (i : Nat) (s : σ) : σ := M.accessSecret i (M.cacheSecret s)

/-- The `for` loop of `guess_accessed_page` over the pages `is`: the first whose read is
    fast twice (the second read only when the first was, as `&&` has it), or 0. -/
def guessFrom : List Nat → σ → Nat × σ
  | [], s => (0, s)
  | i :: is, s =>
    let r := M.timeRead i s
    if r.1 < threshold then
      let r' := M.timeRead i r.2
      if r'.1 < threshold then (i, r'.2) else guessFrom is r'.2
    else guessFrom is r.2

def guessAccessedPage (s : σ) : Nat × σ := guessFrom M choices s

/-- One pass of the `while (1)` loop for byte `i`: flush, access, guess. -/
def attempt (i : Nat) (s : σ) : Nat × σ := guessAccessedPage M (doAccess M i (flushAllPages M s))

/-- The `while (1)` loop for byte `i`, at most `fuel` passes: the byte `printf("%c", (char) g)`
    prints and the state after, or `none` when the fuel runs out. -/
def recoverByte : Nat → Nat → σ → Option (UInt8 × σ)
  | 0, _, _ => none
  | fuel + 1, i, s =>
    let r := attempt M i s
    if minChoice < r.1 ∧ r.1 < maxChoice then some (r.1.toUInt8, r.2) else recoverByte fuel i r.2

/-- The `for` loop of `main` over the bytes `is`, after printing `out`. -/
def recover (fuel : Nat) : List Nat → σ → List UInt8 → Run
  | [], _, out => .finished (out ++ [0x0A])
  | i :: is, s, out =>
    match recoverByte M fuel i s with
    | none => .outOfFuel out
    | some (c, s) => recover fuel is s (out ++ [c])

/-- `main`, from the state the machine is in after `init_pages()`. -/
def main (fuel : Nat) (s : σ) : Run := recover M fuel (List.range secretLength) s []

end Probe

def IsCapital (c : UInt8) : Prop := 0x41 ≤ c.toNat ∧ c.toNat ≤ 0x5A

instance (c : UInt8) : Decidable (IsCapital c) := inferInstanceAs (Decidable (_ ∧ _))

/-! ## On an ideal cache -/

/-- The cache the probe relies on, as a map from page to "cached": a read takes `hit` cycles
    on a cached page and `miss` on another and leaves its page cached, a flush evicts its
    page, and the access of secret byte `i` leaves page `secret i` cached. -/
def idealCache (secret : Nat → UInt8) (hit miss : Nat) : Machine (Nat → Bool) where
  flushCacheLine i c := Function.update c i false
  timeRead i c := (if c i then hit else miss, Function.update c i true)
  cacheSecret c := c
  accessSecret i c := Function.update c (secret i).toNat true

section Ideal

variable {secret : Nat → UInt8} {hit miss : Nat}

theorem flush_ideal : ∀ (l : List Nat) (c : Nat → Bool) (j : Nat),
    l.foldl (fun c i => Function.update c i false) c j = if j ∈ l then false else c j
  | [], _, _ => rfl
  | i :: l, c, j => by
    rw [List.foldl_cons, flush_ideal l]
    by_cases hj : j = i <;> by_cases hl : j ∈ l <;> simp [Function.update, hj, hl]

/-- On an ideal cache where, of the pages `l`, only `p` is cached, the scan finds `p`, or
    nothing when `p` is not among them. -/
theorem guessFrom_ideal (hhit : hit < threshold) (hmiss : threshold ≤ miss) (p : Nat) :
    ∀ (l : List Nat) (c : Nat → Bool), l.Nodup → (∀ j ∈ l, c j = decide (j = p)) →
      (guessFrom (idealCache secret hit miss) l c).1 = if p ∈ l then p else 0
  | [], _, _, _ => rfl
  | j :: l, c, hn, hc => by
    have hj := hc j (List.mem_cons_self _ _)
    by_cases hjp : j = p
    · subst hjp
      simp [guessFrom, idealCache, hj, hhit]
    · have hrest : (guessFrom (idealCache secret hit miss) l (Function.update c j true)).1 = if p ∈ l then p else 0 :=
        guessFrom_ideal hhit hmiss p l _ (List.nodup_cons.1 hn).2 fun j' hj' => by
          rw [Function.update_noteq (fun e => (List.nodup_cons.1 hn).1 (by rwa [e] at hj')),
            hc j' (List.mem_cons_of_mem _ hj')]
      have hm : ¬ miss < threshold := by omega
      simp only [guessFrom, idealCache, hj, decide_eq_true_eq, hjp, if_false, hm, List.mem_cons, Ne.symm hjp,
        false_or] at hrest ⊢
      exact hrest

/-- One pass guesses the secret byte's page when it lies in the scanned range, and 0 otherwise,
    whatever the cache held before. -/
theorem attempt_ideal (hhit : hit < threshold) (hmiss : threshold ≤ miss) (i : Nat) (c : Nat → Bool) :
    (attempt (idealCache secret hit miss) i c).1 = if (secret i).toNat ∈ choices then (secret i).toNat else 0 := by
  refine guessFrom_ideal hhit hmiss _ choices _ (List.nodup_range' _ _) fun j hj => ?_
  simp only [doAccess, idealCache, flushAllPages]
  rw [Function.update_apply, flush_ideal choices c j, if_pos hj]
  by_cases h : j = (secret i).toNat <;> simp [h]

/-- The pass prints its guess exactly when the secret byte is a capital: `MIN_CHOICE` and
    `MAX_CHOICE` are scanned but not printed. -/
theorem attempt_prints_ideal (hhit : hit < threshold) (hmiss : threshold ≤ miss) (i : Nat) (c : Nat → Bool) :
    (minChoice < (attempt (idealCache secret hit miss) i c).1 ∧ (attempt (idealCache secret hit miss) i c).1 < maxChoice) ↔
      IsCapital (secret i) := by
  rw [attempt_ideal hhit hmiss]
  simp only [choices, minChoice, maxChoice, List.mem_range'_1, IsCapital]
  split_ifs <;> omega

theorem toUInt8_toNat (x : UInt8) : x.toNat.toUInt8 = x := UInt8.toNat.inj (UInt8.toNat_ofNat_of_lt x.toNat_lt_size)

/-- The `while (1)` loop for a capital ends at its first pass and prints it. -/
theorem recoverByte_ideal_capital (hhit : hit < threshold) (hmiss : threshold ≤ miss) {i : Nat}
    (hcap : IsCapital (secret i)) (fuel : Nat) (c : Nat → Bool) :
    (recoverByte (idealCache secret hit miss) (fuel + 1) i c).map Prod.fst = some (secret i) := by
  have hr : (attempt (idealCache secret hit miss) i c).1 = (secret i).toNat := by
    rw [attempt_ideal hhit hmiss, if_pos]
    simp only [choices, minChoice, maxChoice, List.mem_range'_1]
    unfold IsCapital at hcap
    omega
  rw [recoverByte, if_pos ((attempt_prints_ideal hhit hmiss i c).2 hcap), Option.map_some', hr, toUInt8_toNat]

/-- The `while (1)` loop for any other byte never ends. -/
theorem recoverByte_ideal_other (hhit : hit < threshold) (hmiss : threshold ≤ miss) {i : Nat}
    (hcap : ¬ IsCapital (secret i)) : ∀ (fuel : Nat) (c : Nat → Bool), recoverByte (idealCache secret hit miss) fuel i c = none
  | 0, _ => rfl
  | fuel + 1, c => by
    rw [recoverByte, if_neg (mt (attempt_prints_ideal hhit hmiss i c).1 hcap)]
    exact recoverByte_ideal_other hhit hmiss hcap fuel _

/-- The `for` loop of `main` on an ideal cache prints the bytes while they are capitals, and
    ends only when all of them are. -/
theorem recover_ideal (hhit : hit < threshold) (hmiss : threshold ≤ miss) (fuel : Nat) :
    ∀ (is : List Nat) (c : Nat → Bool) (out : List UInt8),
      recover (idealCache secret hit miss) (fuel + 1) is c out =
        if (is.map secret).all (fun b => decide (IsCapital b)) then .finished (out ++ is.map secret ++ [0x0A])
        else .outOfFuel (out ++ (is.map secret).takeWhile fun b => decide (IsCapital b))
  | [], _, _ => by simp [recover]
  | i :: is, c, out => by
    by_cases hcap : IsCapital (secret i)
    · obtain ⟨⟨b, c'⟩, hr, rfl⟩ := Option.map_eq_some'.1 (recoverByte_ideal_capital hhit hmiss hcap fuel c)
      simp only [recover, hr, recover_ideal hhit hmiss fuel is c' (out ++ [secret i])]
      simp [hcap]
    · simp [recover, recoverByte_ideal_other hhit hmiss hcap, hcap]

end Ideal

/-- The `SECRET_LENGTH` bytes `access_secret` reads. -/
def secretBytes (secret : Nat → UInt8) : List UInt8 := (List.range secretLength).map secret

/-- On an ideal cache, whatever it held at the start, `main` prints the secret and a newline when
    every byte of it is a capital letter; otherwise it prints the capitals before the first
    other byte and loops on that one whatever the bound on the passes of its `while (1)`. -/
theorem main_recovers_secret (secret : Nat → UInt8) (hit miss : Nat) (hhit : hit < threshold)
    (hmiss : threshold ≤ miss) (fuel : Nat) (c : Nat → Bool) :
    main (idealCache secret hit miss) (fuel + 1) c =
      if (secretBytes secret).all (fun b => decide (IsCapital b)) then .finished (secretBytes secret ++ [0x0A])
      else .outOfFuel ((secretBytes secret).takeWhile fun b => decide (IsCapital b)) := by
  have h : recover (idealCache secret hit miss) (fuel + 1) (List.range secretLength) c [] = _ :=
    recover_ideal hhit hmiss fuel (List.range secretLength) c []
  simpa [main, secretBytes] using h

/-- `HELLO`. -/
def hello (i : Nat) : UInt8 := [0x48, 0x45, 0x4C, 0x4C, 0x4F].getD i 0

/-- A cache hit of 50 cycles and a miss of 300: the probe prints `HELLO` in one pass a byte. -/
theorem hello_recovered :
    50 < threshold ∧ threshold ≤ 300 ∧
      main (idealCache hello 50 300) (0 + 1) (fun _ => false) = .finished [0x48, 0x45, 0x4C, 0x4C, 0x4F, 0x0A] :=
  ⟨by decide, by decide, (main_recovers_secret hello 50 300 (by decide) (by decide) 0 _).trans (by decide)⟩

end Cs24.Probe
