import GzipHeaderCodec.Decode

/-! What `decode` hands to `inflate`: an observer inflater logs what each call reads, and the
`(uint32_t)` cast of `peek().second` empties a chunk of a multiple of `2^32` bytes. -/
namespace GzipHeaderCodec

/-- zlib's return contract as the decode driver relies on it: a call reads at most `avail_in`
bytes, and a `Z_OK` return leaves `avail_in == 0` or `avail_out == 0`. That it writes at most
`avail_out` bytes is `Inflater.written_le`. -/
structure Inflater.ReturnContract {σ : Type} (infl : Inflater σ) : Prop where
  consumed_le : ∀ z input n, (infl.inflate z input n).consumed ≤ input.length
  ok_drains : ∀ z input n, (infl.inflate z input n).ret = zOk →
    input.length ≤ (infl.inflate z input n).consumed ∨ (infl.inflate z input n).written.length = n

/-- An observer: `infl`, with the bytes each call reads appended to a log kept beside its
stream. -/
def Inflater.recording {σ : Type} (infl : Inflater σ) : Inflater (σ × Bytes) where
  inflate z input n :=
    ⟨(infl.inflate z.1 input n).ret, (infl.inflate z.1 input n).consumed,
      (infl.inflate z.1 input n).written,
      ((infl.inflate z.1 input n).state, z.2 ++ input.take (infl.inflate z.1 input n).consumed)⟩
  setDictionary z d := ((infl.setDictionary z.1 d).1, ((infl.setDictionary z.1 d).2, z.2))
  written_le z input n := infl.written_le z.1 input n

@[simp] theorem Inflater.recording_inflate {σ : Type} (infl : Inflater σ) (z : σ × Bytes)
    (input : Bytes) (n : Nat) :
    infl.recording.inflate z input n =
      ⟨(infl.inflate z.1 input n).ret, (infl.inflate z.1 input n).consumed,
        (infl.inflate z.1 input n).written,
        ((infl.inflate z.1 input n).state, z.2 ++ input.take (infl.inflate z.1 input n).consumed)⟩ :=
  rfl

@[simp] theorem Inflater.recording_setDictionary {σ : Type} (infl : Inflater σ) (z : σ × Bytes)
    (d : Bytes) :
    infl.recording.setDictionary z d =
      ((infl.setDictionary z.1 d).1, ((infl.setDictionary z.1 d).2, z.2)) :=
  rfl

def zBufError : Int := -5

/-- A stream compressed with a preset dictionary, inflated as zlib does in the simplest case.
Before the dictionary is set (`false`) a call reads the two-byte dictionary id and returns
`Z_NEED_DICT`; after, it copies what fits in `avail_out`, and with no input or no room it returns
`Z_BUF_ERROR`. -/
def Inflater.presetDict : Inflater Bool where
  inflate z input n :=
    if z then
      if input = [] ∨ n = 0 then ⟨zBufError, 0, [], true⟩
      else ⟨zOk, min input.length n, input.take n, true⟩
    else ⟨zNeedDict, min 2 input.length, [], false⟩
  setDictionary _ _ := (zOk, true)
  written_le z input n := by
    cases z <;> dsimp only <;> split_ifs <;> simp

theorem Inflater.presetDict_inflate_false (input : Bytes) (n : Nat) :
    Inflater.presetDict.inflate false input n = ⟨zNeedDict, min 2 input.length, [], false⟩ :=
  rfl

theorem Inflater.presetDict_inflate_true (input : Bytes) (n : Nat) :
    Inflater.presetDict.inflate true input n =
      if input = [] ∨ n = 0 then ⟨zBufError, 0, [], true⟩
      else ⟨zOk, min input.length n, input.take n, true⟩ :=
  rfl

theorem Inflater.presetDict_returnContract : Inflater.presetDict.ReturnContract where
  consumed_le z input n := by
    cases z
    · exact Nat.min_le_right 2 input.length
    · rw [Inflater.presetDict_inflate_true]
      split
      · exact Nat.zero_le _
      · exact Nat.min_le_left _ _
  ok_drains z input n h := by
    cases z
    · rw [Inflater.presetDict_inflate_false] at h
      dsimp only at h
      exact absurd h (by decide)
    · rw [Inflater.presetDict_inflate_true] at h ⊢
      split_ifs at h ⊢
      · exact absurd h (by decide)
      · dsimp only
        rw [List.length_take]
        omega

def DecodeState.observe {σ : Type} (st : DecodeState σ) : DecodeState (σ × Bytes) :=
  ⟨(st.inflater, []), st.headerBuf, st.cursor, st.decodedSize⟩

theorem Cursor.take_peek (c : List Bytes) {n : Nat} (hn : n ≤ (Cursor.peek c).1.length) :
    (Cursor.peek c).1.take n = c.flatten.take n := by
  rw [← Cursor.peek_flatten c]
  rcases Cursor.peek_eq c with h | ⟨b, bs, h⟩ <;> rw [h] at hn ⊢
  · rfl
  · simp [List.take_append_of_le_length hn]

theorem Cursor.take_chunk (c : List Bytes) {n m : Nat} (hn : n ≤ (Cursor.peek c).1.length)
    (hm : n ≤ m) :
    (Cursor.peek c).1.take n ++ (Cursor.skip n (Cursor.peek c).2).flatten.take (m - n) =
      c.flatten.take m := by
  rw [Cursor.take_peek c hn, Cursor.skip_peek c hn, ← List.take_add, Nat.add_sub_cancel' hm]

section Observer

variable {σ : Type} {infl : Inflater σ} (hc : infl.ReturnContract) {dict : Bytes}
  {maxUncompressed : Nat}

include hc in
theorem inflateChunk_recording (fuel : Nat) (z : σ) (log input : Bytes) (buf : HeaderBuf) :
    inflateChunk infl.recording dict maxUncompressed fuel (z, log) input buf =
      (inflateChunk infl dict maxUncompressed fuel z input buf).map
        fun p => ((p.1, log ++ input), p.2) := by
  induction fuel generalizing z log input buf with
  | zero => rfl
  | succ fuel ih =>
    have hdrain := hc.ok_drains z input buf.ensureTailroom.tailroom
    simp only [inflateChunk, Inflater.recording_inflate, Inflater.recording_setDictionary]
    split_ifs with hd hset hrest hret hbig hmore
    · rfl
    · rw [ih]
      simp only [List.append_assoc, List.take_append_drop]
    · simp only [List.length_drop, gt_iff_lt, Nat.sub_pos_iff_lt, not_lt] at hrest
      simp [Except.map, List.take_of_length_le hrest]
    · rfl
    · rfl
    · rw [ih]
      simp only [List.append_assoc, List.take_append_drop]
    · have hall : input.length ≤ (infl.inflate z input buf.ensureTailroom.tailroom).consumed := by
        simp only [List.length_drop, gt_iff_lt, Nat.sub_pos_iff_lt, not_and_or, not_lt] at hmore
        rcases hmore with h | h
        · exact h
        · exact (hdrain (not_not.mp hret)).resolve_right h
      simp [Except.map, List.take_of_length_le hall]

include hc in
theorem inflateInput_recording (fuel length : Nat) (cursor : List Bytes) (consumed : Nat) (z : σ)
    (log : Bytes) (buf : HeaderBuf) :
    inflateInput infl.recording dict maxUncompressed fuel length cursor consumed (z, log) buf =
      (inflateInput infl dict maxUncompressed fuel length cursor consumed z buf).map
        fun p => ((p.1, log ++ cursor.flatten.take length), p.2) := by
  induction fuel generalizing length cursor consumed z log buf with
  | zero =>
    cases length with
    | zero => simp [inflateInput, Except.map]
    | succ => rfl
  | succ fuel ih =>
    cases length with
    | zero => simp [inflateInput, Except.map]
    | succ length =>
      have hn := (Nat.min_le_left _ (length + 1)).trans (Nat.mod_le (Cursor.peek cursor).1.length (2 ^ 32))
      have hm := Nat.min_le_right ((Cursor.peek cursor).1.length % 2 ^ 32) (length + 1)
      simp only [inflateInput]
      rw [inflateChunk_recording hc]
      cases inflateChunk infl dict maxUncompressed fuel z
        ((Cursor.peek cursor).1.take (min ((Cursor.peek cursor).1.length % 2 ^ 32) (length + 1))) buf with
      | error e => rfl
      | ok p =>
        simp only [Except.map, Except.bind]
        rw [ih, List.append_assoc, Cursor.take_chunk cursor hn hm]
        rfl

end Observer

/-- Whenever `decode` returns, `inflate` has read the first `length` bytes of the cursor, each
once and in order, whatever the chain's buffers and wherever `Z_NEED_DICT` arrives: the run with
the observer is the run itself, with those bytes in the log. -/
theorem decode_recording {σ : Type} {infl : Inflater σ} (hc : infl.ReturnContract)
    (vs : VersionSettings) (maxUncompressed fuel : Nat) (st : DecodeState σ) (length : Nat) :
    decode infl.recording vs maxUncompressed fuel st.observe length =
      (decode infl vs maxUncompressed fuel st length).map fun p =>
        (p.1, ⟨(p.2.inflater, st.cursor.flatten.take length), p.2.headerBuf, p.2.cursor,
          p.2.decodedSize⟩) := by
  unfold decode
  split_ifs with hlen
  · subst hlen
    rfl
  dsimp only [DecodeState.observe]
  rw [inflateInput_recording hc]
  cases inflateInput infl vs.dict maxUncompressed fuel length st.cursor 0 st.inflater
    (getStaticHeaderBufSpace maxUncompressed st.headerBuf) with
  | error e => rfl
  | ok p =>
    obtain ⟨z, buf, cursor, consumed⟩ := p
    dsimp only [Except.map, Except.bind]
    cases decodeTail vs.nameValueSize buf.data consumed <;> rfl

theorem decode_recording_presetDict :
    Inflater.presetDict.ReturnContract ∧
    decode Inflater.presetDict.recording ⟨2, [], .inl rfl⟩ 64 3
        (DecodeState.observe ⟨false, none, [[0x78, 0xbb, 0, 1, 0, 1], [0x61, 0, 1, 0x62]], ⟨0, 0⟩⟩)
        10 =
      .ok (⟨[⟨[0x61], false, false⟩, ⟨[0x62], false, false⟩], 10⟩,
        ⟨(true, [0x78, 0xbb, 0, 1, 0, 1, 0x61, 0, 1, 0x62]),
          some ⟨[0, 1, 0, 1, 0x61, 0, 1, 0x62], 64, by decide⟩, [[]], ⟨10, 8⟩⟩) :=
  ⟨Inflater.presetDict_returnContract, by rw [decode_recording Inflater.presetDict_returnContract]; rfl⟩

/- A frame longer than the chain -/

theorem Cursor.peek_length_le (c : List Bytes) : (Cursor.peek c).1.length ≤ c.flatten.length := by
  rw [← Cursor.peek_flatten c]
  rcases Cursor.peek_eq c with h | ⟨b, bs, h⟩ <;> rw [h]
  · exact Nat.le_refl _
  · simp

theorem inflateInput_le_chain {σ : Type} {infl : Inflater σ} {dict : Bytes}
    {maxUncompressed fuel length consumed : Nat} {cursor : List Bytes} {z : σ} {buf : HeaderBuf}
    {r : σ × HeaderBuf × List Bytes × Nat}
    (h : inflateInput infl dict maxUncompressed fuel length cursor consumed z buf = .ok r) :
    length ≤ cursor.flatten.length := by
  induction fuel generalizing length cursor consumed z buf with
  | zero =>
    cases length with
    | zero => exact Nat.zero_le _
    | succ _ => cases h
  | succ fuel ih =>
    cases length with
    | zero => exact Nat.zero_le _
    | succ length =>
      simp only [inflateInput] at h
      rcases hc : inflateChunk infl dict maxUncompressed fuel z
        ((Cursor.peek cursor).1.take (min ((Cursor.peek cursor).1.length % 2 ^ 32) (length + 1))) buf
        with e | ⟨z1, buf1⟩ <;> rw [hc] at h
      · cases h
      have hle := (Nat.min_le_left ((Cursor.peek cursor).1.length % 2 ^ 32) (length + 1)).trans
        (Nat.mod_le _ _)
      have hrest := ih h
      rw [Cursor.skip_peek cursor hle, List.length_drop] at hrest
      have := Cursor.peek_length_le cursor
      omega

/-- `decode` never accepts a frame the chain does not hold: whatever the inflater returns,
a result of `decode` comes after `length` bytes were taken from the cursor. -/
theorem decode_within_chain {σ : Type} (infl : Inflater σ) (vs : VersionSettings)
    (maxUncompressed fuel length : Nat) (st : DecodeState σ) {r : HeaderDecodeResult}
    {st' : DecodeState σ} (h : decode infl vs maxUncompressed fuel st length = .ok (r, st')) :
    length ≤ st.cursor.flatten.length := by
  rcases decode_eq_ok h with ⟨rfl, -, -⟩ | ⟨z, buf, cursor, consumed, c, hi, -⟩
  · exact Nat.zero_le _
  · exact inflateInput_le_chain hi

theorem decode_within_chain_copy :
    ∃ r st', decode Inflater.copy ⟨2, [], .inl rfl⟩ 64 3
        ⟨(), none, [[0, 1, 0, 1, 0x61], [0, 1, 0x62, 0x63]], ⟨0, 0⟩⟩ 8 = .ok (r, st') ∧
      8 ≤ ([[0, 1, 0, 1, 0x61], [0, 1, 0x62, 0x63]] : List Bytes).flatten.length :=
  have h : decode Inflater.copy ⟨2, [], .inl rfl⟩ 64 3
      ⟨(), none, [[0, 1, 0, 1, 0x61], [0, 1, 0x62, 0x63]], ⟨0, 0⟩⟩ 8 =
      .ok (⟨[⟨[0x61], false, false⟩, ⟨[0x62], false, false⟩], 8⟩,
        ⟨(), some ⟨[0, 1, 0, 1, 0x61, 0, 1, 0x62], 64, by decide⟩, [[0x63]], ⟨8, 8⟩⟩) := rfl
  ⟨_, _, h, decode_within_chain _ _ _ _ _ _ h⟩

/- A buffer of `2^32` bytes -/

theorem inflateInput_wrap {σ : Type} (infl : Inflater σ) (dict : Bytes)
    (maxUncompressed fuel : Nat) {length : Nat} (consumed : Nat) {b : Bytes} (bs : List Bytes)
    (hb : b ≠ []) (hwrap : b.length % 2 ^ 32 = 0) (hl : 0 < length) (z : σ) (buf : HeaderBuf) :
    inflateInput infl dict maxUncompressed (fuel + 1) length (b :: bs) consumed z buf =
      (inflateChunk infl dict maxUncompressed fuel z [] buf).bind fun p =>
        inflateInput infl dict maxUncompressed fuel length (b :: bs) consumed p.1 p.2 := by
  obtain ⟨length, rfl⟩ := Nat.exists_eq_add_of_lt hl
  simp only [inflateInput, Cursor.peek, if_neg hb, hwrap, Nat.zero_min, List.take_zero,
    Nat.sub_zero, Cursor.skip, List.drop_zero, Nat.add_zero, Nat.zero_add]

theorem Inflater.copy_returnContract : Inflater.copy.ReturnContract where
  consumed_le _ input n := Nat.min_le_left input.length n
  ok_drains _ input n _ := by
    simp only [Inflater.copy, List.length_take]
    omega

theorem inflateChunk_copy_nil (dict : Bytes) {maxUncompressed : Nat} (fuel : Nat) {buf : HeaderBuf}
    (hb : buf.data.length ≤ maxUncompressed) :
    ∃ buf', inflateChunk Inflater.copy dict maxUncompressed (fuel + 1) () [] buf = .ok ((), buf') ∧
      buf'.data = buf.data := by
  refine ⟨buf.ensureTailroom.append [] (Nat.zero_le _), ?_, by simp⟩
  simp [inflateChunk, Inflater.copy, zOk, zNeedDict, Nat.not_lt.mpr hb]

/-- With `Inflater.copy`, which keeps zlib's return contract, `decode` never returns once the
cursor's current buffer has a multiple of `2^32` bytes: every pass hands `inflate` an empty
chunk, and none of the block's bytes is ever read. -/
theorem decode_copy_wrap (vs : VersionSettings) (maxUncompressed fuel length : Nat)
    (st : DecodeState Unit) {b : Bytes} {bs : List Bytes} (hb : b ≠ []) (hwrap : b.length % 2 ^ 32 = 0)
    (hcur : st.cursor = b :: bs) (hlen : 0 < length) :
    Inflater.copy.ReturnContract ∧ decode Inflater.copy vs maxUncompressed fuel st length = .error .outOfFuel := by
  have hloop : ∀ fuel (buf : HeaderBuf), buf.data.length ≤ maxUncompressed →
      inflateInput Inflater.copy vs.dict maxUncompressed fuel length (b :: bs) 0 () buf =
        .error .outOfFuel := by
    intro fuel
    induction fuel with
    | zero =>
      intro _ _
      obtain ⟨length, rfl⟩ := Nat.exists_eq_add_of_lt hlen
      rfl
    | succ fuel ih =>
      intro buf hbuf
      rw [inflateInput_wrap _ _ _ _ _ bs hb hwrap hlen]
      cases fuel with
      | zero => rfl
      | succ fuel =>
        obtain ⟨buf', hc, hdata⟩ := inflateChunk_copy_nil vs.dict fuel hbuf
        rw [hc]
        exact ih buf' (hdata ▸ hbuf)
  refine ⟨Inflater.copy_returnContract, ?_⟩
  unfold decode
  dsimp only
  rw [if_neg (Nat.pos_iff_ne_zero.mp hlen), hcur, show st.inflater = () from rfl,
    hloop fuel _ (by simp [getStaticHeaderBufSpace_data])]
  rfl

theorem decode_copy_wrap_example :
    List.replicate (2 ^ 32) (0x61 : UInt8) ≠ [] ∧
    (List.replicate (2 ^ 32) (0x61 : UInt8)).length % 2 ^ 32 = 0 ∧
    Inflater.copy.ReturnContract ∧
    decode Inflater.copy ⟨2, [], .inl rfl⟩ 64 1000
        ⟨(), none, [List.replicate (2 ^ 32) 0x61], ⟨0, 0⟩⟩ 1 = .error .outOfFuel :=
  have hb : List.replicate (2 ^ 32) (0x61 : UInt8) ≠ [] :=
    List.ne_nil_of_length_pos (by rw [List.length_replicate]; exact Nat.two_pow_pos 32)
  have hwrap : (List.replicate (2 ^ 32) (0x61 : UInt8)).length % 2 ^ 32 = 0 := by
    rw [List.length_replicate, Nat.mod_self]
  ⟨hb, hwrap, decode_copy_wrap _ _ _ _ _ hb hwrap rfl (by decide)⟩

end GzipHeaderCodec
