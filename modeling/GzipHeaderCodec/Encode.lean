import GzipHeaderCodec.Wire

/-! The serializing half of `GzipHeaderCodec::encode`: the header sort, the loop that writes
each unique name once and joins equal names' values with NUL, and the count written last. -/
namespace GzipHeaderCodec

/-- Modelled from the spec: `compress::Header` (declared in Header.h, not in src/): the
classification code (`HTTPHeaderCode`), the name and the value. -/
structure Header where
  code : Nat
  name : Bytes
  value : Bytes
deriving DecidableEq, Repr

/-- `std::string`'s `operator<`: bytewise and unsigned, a proper prefix first. -/
def nameLt : Bytes → Bytes → Bool
  | [], [] => false
  | [], _ :: _ => true
  | _ :: _, [] => false
  | a :: as, b :: bs => a < b || (a == b && nameLt as bs)

/-- Modelled from the spec: `Header::operator<`, by code and then by name. -/
def headerLt (a b : Header) : Bool := a.code < b.code || (a.code == b.code && nameLt a.name b.name)

def SameKey (a b : Header) : Prop := a.code = b.code ∧ a.name = b.name

instance (a b : Header) : Decidable (SameKey a b) := inferInstanceAs (Decidable (_ ∧ _))

/-- A result `std::sort(headers.begin(), headers.end())` may leave: a permutation of the list
in which no header is ordered before an earlier one. The sort is not stable: headers with the
same code and name may come out in any order. -/
structure SortOutcome (hs : List Header) where
  sorted : List Header
  perm : sorted.Perm hs
  ordered : sorted.Pairwise fun a b => headerLt b a = false

/-- The loop state of `encode`: the bytes written up to `dst`, the previous entry's code and
name (`lastCode`, `*lastName`), `lastValueLenPtr` as an offset (`none` for `nullptr`),
`lastValueLen` and `numHeaders`. -/
structure EncodeState where
  buf : Bytes
  lastCode : Nat
  lastName : Bytes
  lastValueLenPtr : Option Nat
  lastValueLen : Nat
  numHeaders : Nat

/-- What goes wrong inside `encode`: the combining branch writing a length through
`lastValueLenPtr == nullptr`. -/
inductive EncodeFault where
  | nullValueLenPtr
deriving DecidableEq, Repr

/-- `appendSizeFun` through a pointer `p` into bytes already written: `field` overwrites the
bytes from `p` on. -/
def patch (buf : Bytes) (p : Nat) (field : Bytes) : Bytes :=
  buf.take p ++ field ++ buf.drop (p + field.length)

/-- One pass of the serialization loop over a sorted header. -/
def encodeStep (w : Nat) (st : EncodeState) (h : Header) : Except EncodeFault EncodeState :=
  if h.code ≠ st.lastCode ∨ h.name ≠ st.lastName then
    let nameEnd := st.buf ++ appendSize w h.name.length ++ h.name.map toLowerAscii
    .ok { buf := nameEnd ++ appendSize w h.value.length ++ h.value
          lastCode := h.code
          lastName := h.name
          lastValueLenPtr := some nameEnd.length
          lastValueLen := h.value.length
          numHeaders := st.numHeaders + 1 }
  else
    match st.lastValueLenPtr with
    | none => .error .nullValueLenPtr
    | some p =>
      let len := st.lastValueLen + (1 + h.value.length)
      .ok { st with buf := patch (st.buf ++ 0 :: h.value) p (appendSize w len), lastValueLen := len }

def encodeLoop (w : Nat) : EncodeState → List Header → Except EncodeFault EncodeState
  | st, [] => .ok st
  | st, h :: hs => (encodeStep w st h).bind fun st' => encodeLoop w st' hs

/-- The state before the loop, for `HTTP_HEADER_OTHER = other` (its value is declared in
HTTPCommonHeaders, not in src/): `dst` is past the `W` bytes left for the count (held as zeros
here, overwritten at the end), `lastName` is the empty string, `lastValueLenPtr` is null. -/
def encodeInit (w other : Nat) : EncodeState := ⟨List.replicate w 0, other, [], none, 0, 0⟩

/-- The uncompressed Name/Value image `encode` writes for the sorted headers: the loop, then the
count of unique names over the first `W` bytes. -/
def serialize (w other : Nat) (sorted : List Header) : Except EncodeFault Bytes :=
  (encodeLoop w (encodeInit w other) sorted).map fun st =>
    patch st.buf 0 (appendSize w st.numHeaders)

/-- `maxUncompressedSize`, the space `encode` reserves before the loop. -/
def maxUncompressedSize (w : Nat) (hs : List Header) : Nat :=
  hs.foldl (fun acc h => acc + w + h.name.length + w + h.value.length) w

/-- `encodedSize_`: the sizes `encode` records and reports to the stats sink. -/
structure HeaderSize where
  compressed : Nat
  uncompressed : Nat
deriving DecidableEq, Repr

/-- `GzipHeaderCodec::encode` over a sort outcome and a DEFLATE stream `deflate` (zlib, not
modelled: a sync-flushed call that consumes the whole image). It returns the compressed bytes,
the stream after the call and `encodedSize_`. -/
def encode {σ : Type} (w other : Nat) (deflate : σ → Bytes → σ × Bytes) (z : σ)
    {hs : List Header} (s : SortOutcome hs) : Except EncodeFault (Bytes × σ × HeaderSize) :=
  (serialize w other s.sorted).map fun image =>
    let (z', out) := deflate z image
    (out, z', ⟨out.length, image.length⟩)

/- Order facts of `operator<` -/

theorem uint8_lt_trichotomy (a b : UInt8) : a < b ∨ a = b ∨ b < a := by
  rcases Nat.lt_trichotomy a.toNat b.toNat with h | h | h
  · exact .inl h
  · exact .inr (.inl (UInt8.toNat.inj h))
  · exact .inr (.inr h)

@[simp] theorem nameLt_irrefl (a : Bytes) : nameLt a a = false := by
  induction a with
  | nil => rfl
  | cons x xs ih => simp [nameLt, ih]

theorem nameLt_trans {a b c : Bytes} (hab : nameLt a b) (hbc : nameLt b c) : nameLt a c := by
  induction a generalizing b c with
  | nil => cases b <;> cases c <;> simp_all [nameLt]
  | cons x xs ih =>
    cases b with
    | nil => simp [nameLt] at hab
    | cons y ys =>
      cases c with
      | nil => simp [nameLt] at hbc
      | cons z zs =>
        simp only [nameLt, Bool.or_eq_true, decide_eq_true_eq, Bool.and_eq_true,
          beq_iff_eq] at hab hbc ⊢
        rcases hab with hxy | ⟨rfl, hxs⟩ <;> rcases hbc with hyz | ⟨rfl, hys⟩
        · exact .inl (UInt8.lt_trans hxy hyz)
        · exact .inl hxy
        · exact .inl hyz
        · exact .inr ⟨rfl, ih hxs hys⟩

theorem nameLt_trichotomy (a b : Bytes) : nameLt a b ∨ a = b ∨ nameLt b a := by
  induction a generalizing b with
  | nil => cases b <;> simp [nameLt]
  | cons x xs ih =>
    cases b with
    | nil => simp [nameLt]
    | cons y ys =>
      simp only [nameLt, Bool.or_eq_true, decide_eq_true_eq, Bool.and_eq_true, beq_iff_eq,
        List.cons.injEq]
      rcases uint8_lt_trichotomy x y with h | rfl | h
      · exact .inl (.inl h)
      · rcases ih ys with h | h | h
        · exact .inl (.inr ⟨rfl, h⟩)
        · exact .inr (.inl ⟨rfl, h⟩)
        · exact .inr (.inr (.inr ⟨rfl, h⟩))
      · exact .inr (.inr (.inl h))

theorem headerLt_of_sameKey {a b : Header} (h : SameKey a b) : headerLt a b = false := by
  obtain ⟨hc, hn⟩ := h
  simp [headerLt, hc, hn]

theorem headerLt_trans {a b c : Header} (hab : headerLt a b) (hbc : headerLt b c) :
    headerLt a c := by
  simp only [headerLt, Bool.or_eq_true, decide_eq_true_eq, Bool.and_eq_true, beq_iff_eq] at *
  rcases hab with h1 | ⟨h1, h1'⟩ <;> rcases hbc with h2 | ⟨h2, h2'⟩
  · exact .inl (by omega)
  · exact .inl (by omega)
  · exact .inl (by omega)
  · exact .inr ⟨h1.trans h2, nameLt_trans h1' h2'⟩

theorem headerLt_trichotomy (a b : Header) : headerLt a b ∨ SameKey a b ∨ headerLt b a := by
  simp only [headerLt, SameKey, Bool.or_eq_true, decide_eq_true_eq, Bool.and_eq_true,
    beq_iff_eq]
  rcases Nat.lt_trichotomy a.code b.code with h | h | h
  · exact .inl (.inl h)
  · rcases nameLt_trichotomy a.name b.name with h' | h' | h'
    · exact .inl (.inr ⟨h, h'⟩)
    · exact .inr (.inl ⟨h, h'⟩)
    · exact .inr (.inr (.inr ⟨h.symm, h'⟩))
  · exact .inr (.inr (.inl h))

theorem headerLt_asymm {a b : Header} (h : headerLt a b) : headerLt b a = false := by
  cases hba : headerLt b a
  · rfl
  · have := headerLt_trans h hba
    simp [headerLt] at this

theorem headerLt_congr {a a' b b' : Header} (ha : SameKey a a') (hb : SameKey b b') :
    headerLt a b = headerLt a' b' := by
  simp [headerLt, ha.1, ha.2, hb.1, hb.2]

theorem SameKey.refl (a : Header) : SameKey a a := ⟨rfl, rfl⟩

theorem SameKey.symm {a b : Header} (h : SameKey a b) : SameKey b a := ⟨h.1.symm, h.2.symm⟩

theorem sameKey_of_between {a b c : Header} (hab : headerLt b a = false)
    (hbc : headerLt c b = false) (hac : SameKey a c) : SameKey a b := by
  rcases headerLt_trichotomy a b with h | h | h
  · rw [headerLt_congr hac (SameKey.refl b)] at h
    simp [h] at hbc
  · exact h
  · simp [h] at hab

def headerLe (a b : Header) : Prop := headerLt b a = false

instance : DecidableRel headerLe := fun a b => inferInstanceAs (Decidable (headerLt b a = false))

instance : IsTotal Header headerLe where
  total a b := by
    cases h : headerLt b a
    · exact .inl h
    · exact .inr (headerLt_asymm h)

instance : IsTrans Header headerLe where
  trans a b c hab hbc := by
    unfold headerLe at *
    cases hca : headerLt c a
    · rfl
    · rcases headerLt_trichotomy b a with h | h | h
      · simp [h] at hab
      · rw [headerLt_congr (SameKey.refl c) h] at hbc
        simp [hca] at hbc
      · simp [headerLt_trans hca h] at hbc

def SortOutcome.insertion (hs : List Header) : SortOutcome hs where
  sorted := hs.insertionSort headerLe
  perm := List.perm_insertionSort headerLe hs
  ordered := List.sorted_insertionSort headerLe hs

end GzipHeaderCodec
