import Mathlib

/-! Bytes of the SPDY Name/Value block: the `W`-byte size fields, ASCII lowercasing, the
name-byte test, and the pieces and error codes the decoder hands back. -/
namespace GzipHeaderCodec

abbrev Bytes := List UInt8

/-- Modelled from the spec: `SPDYVersionSettings` (declared in SPDYCodec, not in src/), the
fields the codec reads: the width `W` of every size field (`nameValueSize`, 2 for SPDY/2 and
4 for SPDY/3.x) and the preload dictionary that `decode` installs on `Z_NEED_DICT`. -/
structure VersionSettings where
  nameValueSize : Nat
  dict : Bytes
  width_two_or_four : nameValueSize = 2 ∨ nameValueSize = 4

/-- Modelled from the spec: `appendSizeFun`, the value as `w` big-endian bytes. A `w`-byte
field keeps the value modulo `256 ^ w`, as the `uint16_t`/`uint32_t` store does. -/
def appendSize : Nat → Nat → Bytes
  | 0, _ => []
  | w + 1, n => appendSize w (n / 256) ++ [UInt8.ofNat n]

def readBE (bs : Bytes) : Nat := bs.foldl (fun acc b => acc * 256 + b.toNat) 0

/-- Modelled from the spec: `parseSizeFun`, `w` big-endian bytes read at the cursor; `none` is
the `std::out_of_range` the cursor throws when fewer than `w` bytes are left. -/
def parseSize (w : Nat) (cur : Bytes) : Option (Nat × Bytes) :=
  if w ≤ cur.length then some (readBE (cur.take w), cur.drop w) else none

/-- `folly::toLowerAscii` on one byte: `A`..`Z` become `a`..`z`, every other byte is kept. -/
def toLowerAscii (c : UInt8) : UInt8 := if 65 ≤ c ∧ c ≤ 90 then c + 32 else c

/-- The test `parseNameValues` applies to every name byte:
`c < 0x20 || c > 0x7e || ('A' <= c && c <= 'Z')`. Bytes from `0x80` are rejected whether `char`
is signed (then `c < 0x20`) or not (then `c > 0x7e`). -/
def invalidNameChar (c : UInt8) : Bool := c < 0x20 || c > 0x7e || (65 ≤ c && c ≤ 90)

/-- Modelled from the spec: `HeaderDecodeError`, the codes `decode` returns. -/
inductive HeaderDecodeError where
  | badEncoding
  | headersTooLarge
  | inflateDictionary
  | emptyHeaderName
  | emptyHeaderValue
  | invalidHeaderValue
deriving DecidableEq, Repr

/-- `HeaderPiece`: the bytes a decoded name or value views, whether the piece owns them, and
whether it was produced by splitting a NUL-joined value. -/
structure HeaderPiece where
  str : Bytes
  owned : Bool
  multiValued : Bool
deriving DecidableEq, Repr

/- Size fields -/

@[simp] theorem appendSize_length (w n : Nat) : (appendSize w n).length = w := by
  induction w generalizing n with
  | zero => rfl
  | succ w ih => simp [appendSize, ih]

@[simp] theorem readBE_nil : readBE [] = 0 := rfl

theorem readBE_append_single (bs : Bytes) (b : UInt8) :
    readBE (bs ++ [b]) = readBE bs * 256 + b.toNat := by
  simp [readBE, List.foldl_append]

theorem readBE_appendSize (w n : Nat) : readBE (appendSize w n) = n % 256 ^ w := by
  induction w generalizing n with
  | zero => simp [appendSize, Nat.mod_one]
  | succ w ih =>
    rw [appendSize, readBE_append_single, ih, Nat.pow_succ', Nat.mod_mul]
    simp [UInt8.toNat, UInt8.ofNat, BitVec.toNat_ofNat]
    omega

theorem readBE_lt (bs : Bytes) : readBE bs < 256 ^ bs.length := by
  induction bs using List.reverseRecOn with
  | nil => simp
  | append_singleton bs b ih =>
    rw [readBE_append_single, List.length_append, List.length_singleton, Nat.pow_succ]
    have := b.toNat_lt_size
    simp only [UInt8.size] at this
    omega

theorem appendSize_readBE (bs : Bytes) : appendSize bs.length (readBE bs) = bs := by
  induction bs using List.reverseRecOn with
  | nil => rfl
  | append_singleton bs b ih =>
    have hb := b.toNat_lt_size
    simp only [UInt8.size] at hb
    have hdiv : (readBE bs * 256 + b.toNat) / 256 = readBE bs := by omega
    have hbyte : UInt8.ofNat (readBE bs * 256 + b.toNat) = b := by
      apply UInt8.toNat.inj
      simp [UInt8.toNat, UInt8.ofNat, BitVec.toNat_ofNat]
      omega
    rw [List.length_append, List.length_singleton, appendSize, readBE_append_single, hdiv,
      ih, hbyte]

theorem parseSize_appendSize (w n : Nat) (rest : Bytes) :
    parseSize w (appendSize w n ++ rest) = some (n % 256 ^ w, rest) := by
  simp [parseSize, List.take_left', List.drop_left', readBE_appendSize]

theorem readBE_take_appendSize (w n : Nat) (rest : Bytes) :
    readBE ((appendSize w n ++ rest).take w) = n % 256 ^ w := by
  rw [List.take_left' (appendSize_length w n), readBE_appendSize]

theorem parseSize_eq_some {w n : Nat} {cur rest : Bytes} (h : parseSize w cur = some (n, rest)) :
    cur = appendSize w n ++ rest ∧ n < 256 ^ w := by
  unfold parseSize at h
  split at h
  · obtain ⟨rfl, rfl⟩ := Option.some.inj h |> Prod.mk.inj
    have hlen : (cur.take w).length = w := by simp; omega
    have hlt := readBE_lt (cur.take w)
    rw [hlen] at hlt
    refine ⟨?_, hlt⟩
    conv_lhs => rw [← List.take_append_drop w cur, ← appendSize_readBE (cur.take w), hlen]
  · cases h

theorem parseSize_eq_none {w : Nat} {cur : Bytes} : parseSize w cur = none ↔ cur.length < w := by
  unfold parseSize
  split <;> simp <;> omega

/- Name bytes -/

theorem uint8_le_iff (a b : UInt8) : a ≤ b ↔ a.toNat ≤ b.toNat := Iff.rfl

theorem uint8_lt_iff (a b : UInt8) : a < b ↔ a.toNat < b.toNat := Iff.rfl

@[simp] theorem uint8_toNat_lit (n : Nat) : (no_index (OfNat.ofNat n : UInt8)).toNat = n % 256 :=
  rfl

theorem toNat_add_32 (c : UInt8) (h : c.toNat < 224) : (c + 32).toNat = c.toNat + 32 := by
  show (c.toBitVec + 32#8).toNat = _
  rw [BitVec.toNat_add]
  show (c.toNat + 32) % 256 = _
  omega

theorem invalidNameChar_toLowerAscii {c : UInt8} (h1 : 0x20 ≤ c) (h2 : c ≤ 0x7e) :
    invalidNameChar (toLowerAscii c) = false := by
  simp only [uint8_le_iff, uint8_toNat_lit] at h1 h2
  unfold invalidNameChar toLowerAscii
  split
  · rename_i h
    simp only [uint8_le_iff, uint8_toNat_lit] at h
    have h32 := toNat_add_32 c (by omega)
    simp only [Bool.or_eq_false_iff, decide_eq_false_iff_not, uint8_lt_iff, uint8_le_iff,
      gt_iff_lt, uint8_toNat_lit, Bool.and_eq_false_imp, decide_eq_true_eq, h32]
    omega
  · rename_i h
    simp only [uint8_le_iff, uint8_toNat_lit] at h
    simp only [Bool.or_eq_false_iff, decide_eq_false_iff_not, uint8_lt_iff, uint8_le_iff,
      gt_iff_lt, uint8_toNat_lit, Bool.and_eq_false_imp, decide_eq_true_eq]
    omega

example : toLowerAscii 0x41 = 0x61 := by decide

end GzipHeaderCodec
