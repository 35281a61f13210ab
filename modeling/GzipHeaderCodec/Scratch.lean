import GzipHeaderCodec.Termination

/-! The thread's scratch buffer through one `decode`: the `tailroom() == 0` branch, which the
source expects never to run, doubles the buffer at most once, and only when the image fills it. -/
namespace GzipHeaderCodec

namespace HeaderBuf

@[simp] theorem append_capacity (b : HeaderBuf) (out : Bytes) (h : out.length ≤ b.tailroom) :
    (b.append out h).capacity = b.capacity := rfl

/-- The scratch buffer during one `decode` from a capacity `c`: within `c` bytes, and either of
capacity `c` still, or doubled once with exactly `c` bytes in it. -/
def Doubling (c : Nat) (b : HeaderBuf) : Prop :=
  b.data.length ≤ c ∧ (b.capacity = c ∨ b.capacity = c + c ∧ b.data.length = c)

variable {c : Nat} {b : HeaderBuf}

theorem doubling_of_data_nil (h : b.data = []) : b.Doubling b.capacity := by
  simp [Doubling, h]

theorem Doubling.ensureTailroom (h : b.Doubling c) : b.ensureTailroom.Doubling c := by
  unfold HeaderBuf.ensureTailroom
  split
  · next hfull =>
    have := b.length_le
    simp only [Doubling, tailroom] at h hfull ⊢
    omega
  · exact h

theorem Doubling.append {out : Bytes} {hout : out.length ≤ b.tailroom} (h : b.Doubling c)
    (hle : (b.append out hout).data.length ≤ c) : (b.append out hout).Doubling c := by
  simp only [Doubling, append_data, append_capacity, List.length_append] at h hle ⊢
  omega

end HeaderBuf

section Loops

variable {σ : Type} {infl : Inflater σ} {dict : Bytes} {maxUncompressed c : Nat}

theorem inflateChunk_doubling {fuel : Nat} {z z' : σ} {input : Bytes} {buf buf' : HeaderBuf}
    (h : inflateChunk infl dict maxUncompressed fuel z input buf = .ok (z', buf'))
    (hc : maxUncompressed ≤ c) (hb : buf.Doubling c) : buf'.Doubling c := by
  induction fuel generalizing z input buf with
  | zero => cases h
  | succ fuel ih =>
    simp only [inflateChunk] at h
    split_ifs at h with hd hset hrest hret hbig hmore
    · exact ih h hb.ensureTailroom
    · cases h
      exact hb.ensureTailroom
    · exact ih h (hb.ensureTailroom.append (by omega))
    · cases h
      exact hb.ensureTailroom.append (by omega)

theorem inflateInput_doubling {fuel length consumed consumed' : Nat} {cursor cursor' : List Bytes}
    {z z' : σ} {buf buf' : HeaderBuf}
    (h : inflateInput infl dict maxUncompressed fuel length cursor consumed z buf =
      .ok (z', buf', cursor', consumed')) (hc : maxUncompressed ≤ c) (hb : buf.Doubling c) :
    buf'.Doubling c := by
  induction fuel generalizing length cursor consumed z buf with
  | zero =>
    cases length with
    | zero => cases h; exact hb
    | succ _ => cases h
  | succ fuel ih =>
    cases length with
    | zero => cases h; exact hb
    | succ length =>
      simp only [inflateInput] at h
      rcases hi : inflateChunk infl dict maxUncompressed fuel z
        ((Cursor.peek cursor).1.take (min ((Cursor.peek cursor).1.length % 2 ^ 32) (length + 1))) buf
        with e | ⟨z1, buf1⟩ <;> rw [hi] at h
      · cases h
      exact ih h (inflateChunk_doubling hi hc hb)

end Loops

/-- The `tailroom() == 0` branch over a whole `decode`: the scratch buffer it leaves has the
capacity `getStaticHeaderBufSpace` gave it, or twice that when the image is exactly
`maxUncompressed_` bytes and the buffer had exactly that capacity. -/
theorem decode_doubles_when_full {σ : Type} (infl : Inflater σ) (vs : VersionSettings)
    (maxUncompressed fuel length : Nat) (st : DecodeState σ) {r : HeaderDecodeResult}
    {st' : DecodeState σ} (h : decode infl vs maxUncompressed fuel st length = .ok (r, st'))
    (hpos : 0 < length) :
    ∃ buf, st'.headerBuf = some buf ∧
      (buf.capacity = (getStaticHeaderBufSpace maxUncompressed st.headerBuf).capacity ∨
        buf.capacity = maxUncompressed + maxUncompressed ∧ buf.data.length = maxUncompressed ∧
          (getStaticHeaderBufSpace maxUncompressed st.headerBuf).capacity = maxUncompressed) := by
  rcases decode_eq_ok h with ⟨rfl, -⟩ | ⟨z, buf, cursor, consumed, c, hi, -, -, -, rfl⟩
  · exact absurd hpos (Nat.lt_irrefl 0)
  have h0 := getStaticHeaderBufSpace_data maxUncompressed st.headerBuf
  have hroom := le_getStaticHeaderBufSpace_tailroom maxUncompressed st.headerBuf
  simp only [HeaderBuf.tailroom, h0, List.length_nil, Nat.sub_zero] at hroom
  have hmax := (inflateInput_ok hi).2.2 (by rw [h0]; exact Nat.zero_le _)
  obtain ⟨-, hcap⟩ := inflateInput_doubling hi hroom (HeaderBuf.doubling_of_data_nil h0)
  exact ⟨buf, rfl, by omega⟩

/-- A test stream whose image is its first `k` bytes, copied as room allows; the bytes after them
end the block and are read without output. It keeps zlib's contract: `Z_BUF_ERROR` when it can
make no progress. -/
def Inflater.flushed : Inflater Nat where
  inflate k input n :=
    if input = [] ∨ (0 < k ∧ n = 0) then ⟨zBufError, 0, [], k⟩
    else if k = 0 then ⟨zOk, input.length, [], 0⟩
    else ⟨zOk, (input.take (min k n)).length, input.take (min k n), k - (input.take (min k n)).length⟩
  setDictionary k _ := (zOk, k)
  written_le k input n := by
    dsimp only
    split_ifs
    · exact Nat.zero_le n
    · exact Nat.zero_le n
    · simp only [List.length_take]
      omega

theorem Inflater.flushed_progress : Inflater.flushed.Progress fun _ => false where
  consumed_le k input n := by
    simp only [Inflater.flushed]
    split_ifs
    · exact Nat.zero_le _
    · exact Nat.le_refl _
    · exact List.length_take_le' _ _
  ok_progress k input n h := by
    simp only [Inflater.flushed] at h ⊢
    split_ifs at h ⊢ with hno hk
    · exact absurd h (by decide : zBufError ≠ zOk)
    · exact .inl (List.length_pos.mpr (not_or.mp hno).1)
    · have := List.length_pos.mpr (not_or.mp hno).1
      right
      simp only [List.length_take]
      omega
  needDict_pending k input n h := by
    simp only [Inflater.flushed] at h
    split_ifs at h <;> dsimp only at h <;> exact absurd h (by decide)
  setDictionary_done _ _ _ := rfl
  ok_done _ _ _ _ _ := rfl

/-- A repeated pass of the inner loop, not a dictionary retry, that writes nothing: the image
fills the buffer with the end of the block still in the chunk, the second pass reads it without
output, and the loop ends on its input, with no `HEADERS_TOO_LARGE`. -/
theorem decode_repeat_pass_reads_only :
    Inflater.flushed.Progress (fun _ => false) ∧
    (∀ fuel, inflateChunk Inflater.flushed [] 8 (fuel + 2) 8
        [0, 1, 0, 1, 0x61, 0, 1, 0x62, 0, 0, 0xff, 0xff] (getStaticHeaderBufSpace 8 none) =
      inflateChunk Inflater.flushed [] 8 (fuel + 1) 0 [0, 0, 0xff, 0xff]
        ⟨[0, 1, 0, 1, 0x61, 0, 1, 0x62], 8, by decide⟩) ∧
    Inflater.flushed.inflate 0 [0, 0, 0xff, 0xff] 8 = ⟨zOk, 4, [], 0⟩ ∧
    decode Inflater.flushed ⟨2, [], .inl rfl⟩ 8 3
        ⟨8, none, [[0, 1, 0, 1, 0x61, 0, 1, 0x62, 0, 0, 0xff, 0xff]], ⟨0, 0⟩⟩ 12 =
      .ok (⟨[⟨[0x61], false, false⟩, ⟨[0x62], false, false⟩], 12⟩,
        ⟨0, some ⟨[0, 1, 0, 1, 0x61, 0, 1, 0x62], 16, by decide⟩, [[]], ⟨12, 8⟩⟩) :=
  ⟨Inflater.flushed_progress, fun _ => rfl, rfl, rfl⟩

theorem decode_doubles_when_full_flushed :
    ∃ r st', decode Inflater.flushed ⟨2, [], .inl rfl⟩ 8 3
        ⟨8, none, [[0, 1, 0, 1, 0x61, 0, 1, 0x62], [0, 0, 0xff, 0xff]], ⟨0, 0⟩⟩ 12 = .ok (r, st') ∧
      st'.headerBuf.map HeaderBuf.capacity = some 16 ∧
      ∃ buf, st'.headerBuf = some buf ∧
        (buf.capacity = 8 ∨ buf.capacity = 8 + 8 ∧ buf.data.length = 8 ∧ 8 = 8) :=
  have h : decode Inflater.flushed ⟨2, [], .inl rfl⟩ 8 3
      ⟨8, none, [[0, 1, 0, 1, 0x61, 0, 1, 0x62], [0, 0, 0xff, 0xff]], ⟨0, 0⟩⟩ 12 =
      .ok (⟨[⟨[0x61], false, false⟩, ⟨[0x62], false, false⟩], 12⟩,
        ⟨0, some ⟨[0, 1, 0, 1, 0x61, 0, 1, 0x62], 16, by decide⟩, [[]], ⟨12, 8⟩⟩) := rfl
  ⟨_, _, h, rfl, decode_doubles_when_full _ _ _ _ _ _ h (by decide)⟩

end GzipHeaderCodec
