import GzipHeaderCodec.Feed

/-! `decode` ends on every input: under zlib's contract each pass lowers the bytes left, plus the
room below `maxUncompressed_`, plus the dictionary request still to come. -/
namespace GzipHeaderCodec

/-- zlib's contract as the termination of `decode` needs it. `pending z` says the stream may
still ask for its dictionary: `Z_NEED_DICT` comes only then, and neither after the dictionary is
set nor after a `Z_OK` from a stream that no longer asks. A call reads at most `avail_in` bytes,
and returns `Z_OK` only when it read or wrote a byte. -/
structure Inflater.Progress {σ : Type} (infl : Inflater σ) (pending : σ → Bool) : Prop where
  consumed_le : ∀ z input n, (infl.inflate z input n).consumed ≤ input.length
  ok_progress : ∀ z input n, (infl.inflate z input n).ret = zOk →
    0 < (infl.inflate z input n).consumed ∨ 0 < (infl.inflate z input n).written.length
  needDict_pending : ∀ z input n, (infl.inflate z input n).ret = zNeedDict → pending z = true
  setDictionary_done : ∀ z d, (infl.setDictionary z d).1 = zOk →
    pending (infl.setDictionary z d).2 = false
  ok_done : ∀ z input n, pending z = false → (infl.inflate z input n).ret = zOk →
    pending (infl.inflate z input n).state = false

def roomLeft (maxUncompressed : Nat) (buf : HeaderBuf) : Nat :=
  maxUncompressed + 1 - buf.data.length

def dictLeft {σ : Type} (pending : σ → Bool) (z : σ) : Nat := if pending z then 1 else 0

/-- What bounds the passes of the inner loop over `input`. -/
def chunkMeasure {σ : Type} (pending : σ → Bool) (maxUncompressed : Nat) (z : σ) (input : Bytes)
    (buf : HeaderBuf) : Nat :=
  input.length + roomLeft maxUncompressed buf + dictLeft pending z

/-- What bounds the passes of the outer loop with `length` bytes left. -/
def inputMeasure {σ : Type} (pending : σ → Bool) (maxUncompressed length : Nat) (z : σ)
    (buf : HeaderBuf) : Nat :=
  length + roomLeft maxUncompressed buf + dictLeft pending z

theorem dictLeft_le_one {σ : Type} (pending : σ → Bool) (z : σ) : dictLeft pending z ≤ 1 := by
  unfold dictLeft
  split <;> omega

section Passes

variable {σ : Type} {infl : Inflater σ} {pending : σ → Bool} (hp : infl.Progress pending)
  {dict : Bytes} {maxUncompressed : Nat}

include hp in
theorem dictLeft_ok {z : σ} {input : Bytes} {n : Nat} (h : (infl.inflate z input n).ret = zOk) :
    dictLeft pending (infl.inflate z input n).state ≤ dictLeft pending z := by
  cases hz : pending z
  · simp [dictLeft, hp.ok_done z input n hz h]
  · simpa [dictLeft, hz] using dictLeft_le_one pending _

include hp in
theorem dictLeft_needDict {z : σ} {input : Bytes} {n : Nat}
    (hd : (infl.inflate z input n).ret = zNeedDict)
    (hset : (infl.setDictionary (infl.inflate z input n).state dict).1 = zOk) :
    dictLeft pending (infl.setDictionary (infl.inflate z input n).state dict).2 + 1 =
      dictLeft pending z := by
  simp [dictLeft, hp.needDict_pending z input n hd, hp.setDictionary_done _ dict hset]

include hp in
theorem chunkMeasure_ok {z : σ} {input : Bytes} {buf : HeaderBuf}
    (hok : (infl.inflate z input buf.ensureTailroom.tailroom).ret = zOk)
    (hbig : ¬(buf.ensureTailroom.append (infl.inflate z input buf.ensureTailroom.tailroom).written
      (infl.written_le _ _ _)).data.length > maxUncompressed) :
    chunkMeasure pending maxUncompressed (infl.inflate z input buf.ensureTailroom.tailroom).state
        (input.drop (infl.inflate z input buf.ensureTailroom.tailroom).consumed)
        (buf.ensureTailroom.append (infl.inflate z input buf.ensureTailroom.tailroom).written
          (infl.written_le _ _ _)) <
      chunkMeasure pending maxUncompressed z input buf := by
  have hc := hp.consumed_le z input buf.ensureTailroom.tailroom
  have hprog := hp.ok_progress z input _ hok
  have hdict := dictLeft_ok hp hok
  simp only [chunkMeasure, roomLeft, List.length_drop, HeaderBuf.append_data, List.length_append,
    HeaderBuf.ensureTailroom_data] at hbig ⊢
  omega

include hp in
theorem inflateChunk_succ_cases (fuel : Nat) (z : σ) (input : Bytes) (buf : HeaderBuf) :
    (∃ e, inflateChunk infl dict maxUncompressed (fuel + 1) z input buf = .error (.error e)) ∨
    (∃ z' buf', inflateChunk infl dict maxUncompressed (fuel + 1) z input buf = .ok (z', buf') ∧
      chunkMeasure pending maxUncompressed z' [] buf' <
        chunkMeasure pending maxUncompressed z input buf) ∨
    (∃ z' rest buf', inflateChunk infl dict maxUncompressed (fuel + 1) z input buf =
        inflateChunk infl dict maxUncompressed fuel z' rest buf' ∧
      chunkMeasure pending maxUncompressed z' rest buf' <
        chunkMeasure pending maxUncompressed z input buf) := by
  have hc := hp.consumed_le z input buf.ensureTailroom.tailroom
  generalize hres : inflateChunk infl dict maxUncompressed (fuel + 1) z input buf = res
  simp only [inflateChunk] at hres
  split_ifs at hres with hd hset hrest hret hbig hmore <;> subst hres
  · exact .inl ⟨_, rfl⟩
  · refine .inr (.inr ⟨_, _, _, rfl, ?_⟩)
    have := dictLeft_needDict hp hd (not_not.mp hset)
    simp only [chunkMeasure, roomLeft, List.length_drop, HeaderBuf.ensureTailroom_data]
    omega
  · refine .inr (.inl ⟨_, _, rfl, ?_⟩)
    have := dictLeft_needDict hp hd (not_not.mp hset)
    simp only [chunkMeasure, roomLeft, List.length_nil, HeaderBuf.ensureTailroom_data]
    omega
  · exact .inl ⟨_, rfl⟩
  · exact .inl ⟨_, rfl⟩
  · exact .inr (.inr ⟨_, _, _, rfl, chunkMeasure_ok hp (not_not.mp hret) hbig⟩)
  · refine .inr (.inl ⟨_, _, rfl, lt_of_le_of_lt ?_ (chunkMeasure_ok hp (not_not.mp hret) hbig)⟩)
    simp only [chunkMeasure, List.length_nil]
    omega

include hp in
theorem inflateChunk_ne_outOfFuel {fuel : Nat} {z : σ} {input : Bytes} {buf : HeaderBuf}
    (h : chunkMeasure pending maxUncompressed z input buf < fuel) :
    inflateChunk infl dict maxUncompressed fuel z input buf ≠ .error .outOfFuel := by
  induction fuel generalizing z input buf with
  | zero => exact absurd h (Nat.not_lt_zero _)
  | succ fuel ih =>
    rcases inflateChunk_succ_cases hp fuel z input buf with
      ⟨e, he⟩ | ⟨z', buf', he, -⟩ | ⟨z', rest, buf', he, hlt⟩ <;> rw [he]
    · simp
    · simp
    · exact ih (by omega)

include hp in
theorem inflateChunk_measure {fuel : Nat} {z z' : σ} {input : Bytes} {buf buf' : HeaderBuf}
    (h : inflateChunk infl dict maxUncompressed fuel z input buf = .ok (z', buf')) :
    chunkMeasure pending maxUncompressed z' [] buf' <
      chunkMeasure pending maxUncompressed z input buf := by
  induction fuel generalizing z input buf with
  | zero => cases h
  | succ fuel ih =>
    rcases inflateChunk_succ_cases hp fuel z input buf with
      ⟨e, he⟩ | ⟨z1, buf1, he, hlt⟩ | ⟨z1, rest, buf1, he, hlt⟩ <;> rw [he] at h
    · cases h
    · cases h
      exact hlt
    · exact (ih h).trans hlt

include hp in
theorem inflateInput_ne_outOfFuel {fuel length : Nat} {cursor : List Bytes} {consumed : Nat}
    {z : σ} {buf : HeaderBuf} (h : inputMeasure pending maxUncompressed length z buf + 1 < fuel) :
    inflateInput infl dict maxUncompressed fuel length cursor consumed z buf ≠ .error .outOfFuel := by
  induction fuel generalizing length cursor consumed z buf with
  | zero => exact absurd h (Nat.not_lt_zero _)
  | succ fuel ih =>
    cases length with
    | zero => simp [inflateInput]
    | succ length =>
      simp only [inflateInput]
      set chunkLen := min ((Cursor.peek cursor).1.length % 2 ^ 32) (length + 1)
      have hlen : ((Cursor.peek cursor).1.take chunkLen).length ≤ chunkLen := List.length_take_le _ _
      have hchunk : chunkLen ≤ length + 1 := Nat.min_le_right _ _
      simp only [inputMeasure] at h
      rcases hc : inflateChunk infl dict maxUncompressed fuel z ((Cursor.peek cursor).1.take chunkLen)
        buf with e | ⟨z1, buf1⟩
      · have hne : inflateChunk infl dict maxUncompressed fuel z ((Cursor.peek cursor).1.take chunkLen)
            buf ≠ .error .outOfFuel :=
          inflateChunk_ne_outOfFuel hp (by simp only [chunkMeasure]; omega)
        rw [hc] at hne
        simpa [Except.bind] using hne
      · have hlt := inflateChunk_measure hp hc
        simp only [chunkMeasure, List.length_nil] at hlt
        exact ih (by simp only [inputMeasure]; omega)

end Passes

theorem Inflater.presetDict_progress : Inflater.presetDict.Progress (fun z => !z) where
  consumed_le := Inflater.presetDict_returnContract.consumed_le
  ok_progress z input n h := by
    cases z
    · simp [Inflater.presetDict, zOk, zNeedDict] at h
    · simp only [Inflater.presetDict, if_true] at h ⊢
      split_ifs at h ⊢ with hn
      · simp [zOk, zBufError] at h
      · rw [not_or] at hn
        exact .inl (Nat.lt_min.mpr ⟨List.length_pos.mpr hn.1, Nat.pos_of_ne_zero hn.2⟩)
  needDict_pending z input n h := by
    cases z
    · rfl
    · simp only [Inflater.presetDict] at h
      split_ifs at h <;> simp [zOk, zNeedDict, zBufError] at h
  setDictionary_done _ _ _ := rfl
  ok_done z input n hz _ := by
    cases z
    · simp at hz
    · simp only [Inflater.presetDict]
      split_ifs <;> rfl

/-- `decode` terminates: on every cursor, for every inflater that keeps zlib's contract, any fuel
from `length + maxUncompressed_ + 4` on gives an outcome, a result or one of `decode`'s own
errors, never running out. -/
theorem decode_terminates {σ : Type} (infl : Inflater σ) (pending : σ → Bool)
    (hp : infl.Progress pending) (vs : VersionSettings) (maxUncompressed fuel length : Nat)
    (st : DecodeState σ) (hfuel : length + maxUncompressed + 4 ≤ fuel) :
    decode infl vs maxUncompressed fuel st length ≠ .error .outOfFuel := by
  unfold decode
  split_ifs
  · simp
  dsimp only
  have hne : inflateInput infl vs.dict maxUncompressed fuel length st.cursor 0 st.inflater
      (getStaticHeaderBufSpace maxUncompressed st.headerBuf) ≠ .error .outOfFuel :=
    inflateInput_ne_outOfFuel hp (by
      have := dictLeft_le_one pending st.inflater
      simp only [inputMeasure, roomLeft, getStaticHeaderBufSpace_data, List.length_nil]
      omega)
  rcases hi : inflateInput infl vs.dict maxUncompressed fuel length st.cursor 0 st.inflater
    (getStaticHeaderBufSpace maxUncompressed st.headerBuf) with e | ⟨z, buf, cursor, consumed⟩
  · rw [hi] at hne
    simpa [Except.bind] using hne
  · simp only [Except.bind]
    cases decodeTail vs.nameValueSize buf.data consumed <;> simp

theorem decode_terminates_presetDict :
    Inflater.presetDict.Progress (fun z => !z) ∧ 10 + 64 + 4 ≤ 78 ∧
    decode Inflater.presetDict ⟨2, [], .inl rfl⟩ 64 78
        ⟨false, none, [[0x78, 0xbb, 0, 1, 0, 1], [0x61, 0, 1, 0x62]], ⟨0, 0⟩⟩ 10 ≠
      .error .outOfFuel :=
  ⟨Inflater.presetDict_progress, by decide,
    decode_terminates _ _ Inflater.presetDict_progress _ _ _ _ _ (by decide)⟩

end GzipHeaderCodec
