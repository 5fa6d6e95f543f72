import Mathlib.Data.List.Infix
import Mathlib.Tactic.Ring

/-! Big-endian numbers of a fixed width, and frames that carry their length in front. -/
namespace ByteFrames

abbrev Bytes := List UInt8

/-- The last `width` base-256 digits, the most significant one first. -/
def toBeBytes : (width n : ℕ) → Bytes
  | 0, _ => []
  | w + 1, n => UInt8.ofNat (n / 256 ^ w) :: toBeBytes w n

def fromBeBytes (bytes : Bytes) : ℕ := bytes.foldl (fun n b => n * 256 + b.toNat) 0

/-- Fill a buffer of length `n`, or run out of bytes. -/
def readExact (n : ℕ) (bytes : Bytes) : Option (Bytes × Bytes) :=
  if n ≤ bytes.length then some (bytes.splitAt n) else none

def frame (width : ℕ) (payload : Bytes) : Bytes := toBeBytes width payload.length ++ payload

section Numbers

variable (w n : ℕ)

@[simp] theorem toBeBytes_length : (toBeBytes w n).length = w := by
  induction w with
  | zero => rfl
  | succ w ih => rw [toBeBytes, List.length_cons, ih]

theorem foldl_toBeBytes (a : ℕ) :
    (toBeBytes w n).foldl (fun n b => n * 256 + b.toNat) a = a * 256 ^ w + n % 256 ^ w := by
  induction w generalizing a with
  | zero => simp [toBeBytes, Nat.mod_one]
  | succ w ih =>
    have hdigit : (UInt8.ofNat (n / 256 ^ w)).toNat = n / 256 ^ w % 256 := by simp
    rw [toBeBytes, List.foldl_cons, ih, hdigit, pow_succ, Nat.mod_mul]
    ring

/-- A number comes back modulo the width, as after `as u64`. -/
theorem fromBeBytes_toBeBytes : fromBeBytes (toBeBytes w n) = n % 256 ^ w := by
  rw [fromBeBytes, foldl_toBeBytes, Nat.zero_mul, Nat.zero_add]

theorem toBeBytes_add (a : ℕ) : toBeBytes w (a * 256 ^ w + n) = toBeBytes w n := by
  induction w generalizing a with
  | zero => rfl
  | succ w ih =>
    have hhigh : a * 256 ^ (w + 1) + n = n + a * 256 * 256 ^ w := by ring
    have hdigit : (n + a * 256 * 256 ^ w) / 256 ^ w = n / 256 ^ w + a * 256 :=
      Nat.add_mul_div_right _ _ (Nat.pow_pos (by decide))
    have hbyte : UInt8.ofNat (n / 256 ^ w + a * 256) = UInt8.ofNat (n / 256 ^ w) :=
      UInt8.toNat_inj.mp (by simp)
    rw [hhigh, toBeBytes, toBeBytes, hdigit, hbyte, Nat.add_comm n, ih]

variable (bytes : Bytes)

theorem foldl_fromBeBytes (a : ℕ) : bytes.foldl (fun n b => n * 256 + b.toNat) a =
    a * 256 ^ bytes.length + fromBeBytes bytes := by
  induction bytes generalizing a with
  | nil => simp [fromBeBytes]
  | cons b bytes ih =>
    rw [fromBeBytes, List.foldl_cons, List.foldl_cons, ih, ih (0 * 256 + b.toNat), List.length_cons]
    ring

theorem fromBeBytes_cons (b : UInt8) :
    fromBeBytes (b :: bytes) = b.toNat * 256 ^ bytes.length + fromBeBytes bytes := by
  rw [fromBeBytes, List.foldl_cons, foldl_fromBeBytes, Nat.zero_mul, Nat.zero_add]

theorem fromBeBytes_lt : fromBeBytes bytes < 256 ^ bytes.length := by
  induction bytes with
  | nil => simp [fromBeBytes]
  | cons b bytes ih =>
    calc fromBeBytes (b :: bytes) = b.toNat * 256 ^ bytes.length + fromBeBytes bytes :=
          fromBeBytes_cons bytes b
      _ < (b.toNat + 1) * 256 ^ bytes.length := by
          rw [Nat.add_mul, Nat.one_mul]
          omega
      _ ≤ 256 ^ (bytes.length + 1) := by
          rw [pow_succ, Nat.mul_comm _ 256]
          exact Nat.mul_le_mul_right _ b.toNat_lt

theorem toBeBytes_fromBeBytes : toBeBytes bytes.length (fromBeBytes bytes) = bytes := by
  induction bytes with
  | nil => rfl
  | cons b bytes ih =>
    have hdigit : (b.toNat * 256 ^ bytes.length + fromBeBytes bytes) / 256 ^ bytes.length =
        b.toNat := by
      rw [Nat.add_comm, Nat.add_mul_div_right _ _ (Nat.pow_pos (by decide)),
        Nat.div_eq_of_lt (fromBeBytes_lt bytes), Nat.zero_add]
    rw [List.length_cons, toBeBytes, fromBeBytes_cons, hdigit, toBeBytes_add, ih, UInt8.ofNat_toNat]

end Numbers

section Frames

variable {n w : ℕ} {bytes l r payload : Bytes}

theorem readExact_append (h : l.length = n) : readExact n (l ++ r) = some (l, r) := by
  subst h
  simp [readExact, List.splitAt_eq]

theorem readExact_short (h : bytes.length < n) : readExact n bytes = none := by
  rw [readExact, if_neg (by omega)]

theorem readExact_eq (h : readExact n bytes = some (l, r)) : bytes = l ++ r ∧ l.length = n := by
  rw [readExact] at h
  split at h
  · rename_i hn
    rw [List.splitAt_eq, Option.some.injEq, Prod.mk.injEq] at h
    obtain ⟨rfl, rfl⟩ := h
    exact ⟨(List.take_append_drop n bytes).symm, List.length_take_of_le hn⟩
  · exact absurd h (by simp)

theorem frame_cut (h : bytes <+: frame w payload) (hne : bytes ≠ frame w payload) :
    bytes.length < w ∨ ∃ part, bytes = toBeBytes w payload.length ++ part ∧
      part.length < payload.length := by
  obtain ⟨rest, hrest⟩ := h
  by_cases hw : bytes.length < w
  · exact Or.inl hw
  · obtain ⟨part, rfl⟩ : toBeBytes w payload.length <+: bytes := by
      have hhead : toBeBytes w payload.length <+: frame w payload := ⟨payload, rfl⟩
      refine List.prefix_of_prefix_length_le hhead ⟨rest, hrest⟩ ?_
      rw [toBeBytes_length]
      omega
    rw [frame, List.append_assoc, List.append_cancel_left_eq] at hrest
    have hlen : rest ≠ [] := by
      rintro rfl
      rw [List.append_nil] at hrest
      exact hne (by rw [frame, hrest])
    have := List.length_pos_iff.mpr hlen
    refine Or.inr ⟨part, rfl, ?_⟩
    rw [← hrest, List.length_append]
    omega

end Frames

end ByteFrames
