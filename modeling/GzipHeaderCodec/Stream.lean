import GzipHeaderCodec.Feed

/-! `decode` on a frame that arrives in pieces: under zlib's contract for a `Z_SYNC_FLUSH` block,
`decode` fills the scratch buffer with the block's image however the chain splits the frame. -/
namespace GzipHeaderCodec

/- zlib's contract for one block -/

/-- A call that read all `k` bytes of its chunk with `Z_OK` and wrote the next part of
`image`. -/
def InflateResult.Reads {σ : Type} (r : InflateResult σ) (k : Nat) (image : Bytes) : Prop :=
  r.ret = zOk ∧ r.consumed = k ∧ r.written <+: image

/-- Modelled from the spec: zlib's contract for the rest `out` of a `Z_SYNC_FLUSH` block whose
image has `image` left, on a stream that no longer asks for its dictionary. Every call on the
next `k` bytes, with room for the rest of the image, reads them whole and writes the next part of
the image; once the block is read its image is written and the stream satisfies `Q`. -/
inductive Inflater.Streams {σ : Type} (infl : Inflater σ) (Q : σ → Prop) :
    σ → Bytes → Bytes → Prop
  | done {z : σ} : Q z → Inflater.Streams infl Q z [] []
  | feed {z : σ} {out image : Bytes} : out ≠ [] →
      (∀ k n, 0 < k → k ≤ out.length → image.length ≤ n →
        (infl.inflate z (out.take k) n).Reads k image) →
      (∀ k n, 0 < k → k ≤ out.length → image.length ≤ n →
        Inflater.Streams infl Q (infl.inflate z (out.take k) n).state (out.drop k)
          (image.drop (infl.inflate z (out.take k) n).written.length)) →
      Inflater.Streams infl Q z out image

/-- A call that stopped at `Z_NEED_DICT` within its `k` bytes, after which
`inflateSetDictionary` accepts `dict` and the rest of the block streams. -/
def Inflater.AsksDict {σ : Type} (infl : Inflater σ) (dict : Bytes) (Q : σ → Prop)
    (r : InflateResult σ) (k : Nat) (out image : Bytes) : Prop :=
  r.ret = zNeedDict ∧ r.consumed ≤ k ∧ (infl.setDictionary r.state dict).1 = zOk ∧
    infl.Streams Q (infl.setDictionary r.state dict).2 (out.drop r.consumed) image

/-- Modelled from the spec: zlib's contract for a block that may open the stream. Until the
stream asks for its dictionary, a call on the next `k` bytes reads them whole and writes nothing,
or stops within them at `Z_NEED_DICT`; once `inflateSetDictionary` takes `dict` the rest of the
block streams. A block of a stream that no longer asks streams from its first byte. -/
inductive Inflater.Opens {σ : Type} (infl : Inflater σ) (dict : Bytes) (Q : σ → Prop) :
    σ → Bytes → Bytes → Prop
  | streams {z : σ} {out image : Bytes} : infl.Streams Q z out image →
      Inflater.Opens infl dict Q z out image
  | header {z : σ} {out image : Bytes} : out ≠ [] →
      (∀ k n, 0 < k → k ≤ out.length → image.length ≤ n →
        (infl.inflate z (out.take k) n).Reads k [] ∨
          infl.AsksDict dict Q (infl.inflate z (out.take k) n) k out image) →
      (∀ k n, 0 < k → k ≤ out.length → image.length ≤ n → (infl.inflate z (out.take k) n).ret = zOk →
        Inflater.Opens infl dict Q (infl.inflate z (out.take k) n).state (out.drop k) image) →
      Inflater.Opens infl dict Q z out image

section Contract

variable {σ : Type} {infl : Inflater σ} {dict : Bytes} {Q : σ → Prop} {z : σ} {image : Bytes}

theorem Inflater.Streams.nil (h : infl.Streams Q z [] image) : image = [] ∧ Q z := by
  cases h with
  | done hq => exact ⟨rfl, hq⟩
  | feed hout _ _ => exact absurd rfl hout

theorem Inflater.Opens.nil (h : infl.Opens dict Q z [] image) : image = [] ∧ Q z := by
  cases h with
  | streams h => exact h.nil
  | header hout _ _ => exact absurd rfl hout

end Contract

/- The scratch buffer's room -/

/-- The scratch buffer has room for the `image` still to come: within `maxUncompressed_`, which
its capacity covers. -/
def HeaderBuf.RoomFor (maxUncompressed : Nat) (buf : HeaderBuf) (image : Bytes) : Prop :=
  buf.data.length + image.length ≤ maxUncompressed ∧ maxUncompressed ≤ buf.capacity

namespace HeaderBuf

theorem capacity_le_ensureTailroom (b : HeaderBuf) : b.capacity ≤ b.ensureTailroom.capacity := by
  unfold ensureTailroom
  split <;> simp

variable {maxUncompressed : Nat} {buf : HeaderBuf} {image : Bytes}

theorem RoomFor.ensureTailroom (h : buf.RoomFor maxUncompressed image) :
    buf.ensureTailroom.RoomFor maxUncompressed image := by
  have := buf.capacity_le_ensureTailroom
  simp only [RoomFor, ensureTailroom_data] at h ⊢
  omega

theorem RoomFor.le_tailroom (h : buf.RoomFor maxUncompressed image) :
    image.length ≤ buf.ensureTailroom.tailroom := by
  have := h.ensureTailroom
  simp only [RoomFor, tailroom] at this ⊢
  omega

theorem RoomFor.append {w : Bytes} (h : buf.RoomFor maxUncompressed image) (hw : w <+: image)
    (hle : w.length ≤ buf.tailroom) : (buf.append w hle).RoomFor maxUncompressed (image.drop w.length) := by
  have := hw.length_le
  simp only [RoomFor, append_data, List.length_append, List.length_drop] at h ⊢
  exact ⟨by omega, h.2⟩

theorem roomFor_getStaticHeaderBufSpace (b : Option HeaderBuf) (h : image.length ≤ maxUncompressed) :
    (getStaticHeaderBufSpace maxUncompressed b).RoomFor maxUncompressed image := by
  have := le_getStaticHeaderBufSpace_tailroom maxUncompressed b
  simp only [RoomFor, tailroom, getStaticHeaderBufSpace_data, List.length_nil] at this ⊢
  omega

end HeaderBuf

theorem Cursor.peek_cases (c : List Bytes) :
    (Cursor.peek c = ([], []) ∧ c.flatten = []) ∨
      ∃ b bs, b ≠ [] ∧ Cursor.peek c = (b, b :: bs) ∧ b :: bs <:+ c := by
  induction c with
  | nil => exact .inl ⟨rfl, rfl⟩
  | cons b bs ih =>
    unfold Cursor.peek
    split
    · rcases ih with ⟨hp, hf⟩ | ⟨b', bs', hb', hp, hs⟩
      · exact .inl ⟨hp, by simp [*]⟩
      · exact .inr ⟨b', bs', hb', hp, hs.trans (List.suffix_cons _ _)⟩
    · exact .inr ⟨b, bs, ‹_›, rfl, List.suffix_refl _⟩

/- The loops on a streamed block -/

section Loops

variable {σ : Type} {infl : Inflater σ} {dict : Bytes} {Q : σ → Prop} {maxUncompressed : Nat}

theorem inflateChunk_reads {fuel : Nat} {z : σ} {input image : Bytes} {buf : HeaderBuf}
    (hr : (infl.inflate z input buf.ensureTailroom.tailroom).Reads input.length image)
    (hroom : buf.RoomFor maxUncompressed image) :
    inflateChunk infl dict maxUncompressed (fuel + 1) z input buf =
      .ok ((infl.inflate z input buf.ensureTailroom.tailroom).state,
        buf.ensureTailroom.append (infl.inflate z input buf.ensureTailroom.tailroom).written
          (infl.written_le _ _ _)) := by
  obtain ⟨hret, hcons, hpre⟩ := hr
  have hw := hpre.length_le
  have hbig : ¬(buf.data.length +
      (infl.inflate z input buf.ensureTailroom.tailroom).written.length > maxUncompressed) := by
    have := hroom.1
    omega
  simp [inflateChunk, hret, hcons, hbig, zOk, zNeedDict]

theorem inflateChunk_needDict {fuel : Nat} {z : σ} {input : Bytes} {buf : HeaderBuf}
    {r : InflateResult σ} (hr : infl.inflate z input buf.ensureTailroom.tailroom = r)
    (hd : r.ret = zNeedDict) (hset : (infl.setDictionary r.state dict).1 = zOk) :
    inflateChunk infl dict maxUncompressed (fuel + 1) z input buf =
      if 0 < (input.drop r.consumed).length then
        inflateChunk infl dict maxUncompressed fuel (infl.setDictionary r.state dict).2
          (input.drop r.consumed) buf.ensureTailroom
      else .ok ((infl.setDictionary r.state dict).2, buf.ensureTailroom) := by
  subst hr
  simp only [inflateChunk, hd, hset, if_true, ne_eq, not_true_eq_false, if_false, gt_iff_lt]

theorem inflateChunk_streams {fuel k : Nat} {z : σ} {out image : Bytes} {buf : HeaderBuf}
    (hs : infl.Streams Q z out image) (hk : 0 < k) (hkl : k ≤ out.length)
    (hroom : buf.RoomFor maxUncompressed image) :
    ∃ z' buf' w, inflateChunk infl dict maxUncompressed (fuel + 1) z (out.take k) buf =
        .ok (z', buf') ∧ buf'.data = buf.data ++ w ∧ w <+: image ∧
      buf'.RoomFor maxUncompressed (image.drop w.length) ∧
      infl.Streams Q z' (out.drop k) (image.drop w.length) := by
  cases hs with
  | done _ =>
    simp only [List.length_nil] at hkl
    omega
  | feed _ call next =>
    have hn := hroom.le_tailroom
    have hr := call k _ hk hkl hn
    refine ⟨_, _, _, inflateChunk_reads (by rwa [List.length_take_of_le hkl]) hroom,
      by simp, hr.2.2, hroom.ensureTailroom.append hr.2.2 _, next k _ hk hkl hn⟩

theorem inflateChunk_opens {fuel k : Nat} {z : σ} {out image : Bytes} {buf : HeaderBuf}
    (ho : infl.Opens dict Q z out image) (hk : 0 < k) (hkl : k ≤ out.length)
    (hroom : buf.RoomFor maxUncompressed image) :
    ∃ z' buf' w, inflateChunk infl dict maxUncompressed (fuel + 2) z (out.take k) buf =
        .ok (z', buf') ∧ buf'.data = buf.data ++ w ∧ w <+: image ∧
      buf'.RoomFor maxUncompressed (image.drop w.length) ∧
      infl.Opens dict Q z' (out.drop k) (image.drop w.length) := by
  cases ho with
  | streams hs =>
    obtain ⟨z', buf', w, h, hd, hw, hr, hs'⟩ := inflateChunk_streams hs hk hkl hroom
    exact ⟨z', buf', w, h, hd, hw, hr, .streams hs'⟩
  | header _ call next =>
    have hn := hroom.le_tailroom
    rcases call k _ hk hkl hn with hr | ⟨hd, hj, hset, hs⟩
    · have hw := List.prefix_nil.mp hr.2.2
      have hwi : (infl.inflate z (out.take k) buf.ensureTailroom.tailroom).written <+: image := by
        rw [hw]
        exact List.nil_prefix
      refine ⟨_, _, _, inflateChunk_reads (by rw [List.length_take_of_le hkl]; exact ⟨hr.1, hr.2.1, hwi⟩)
        hroom, by simp, hwi, hroom.ensureTailroom.append hwi (infl.written_le _ _ _), ?_⟩
      rw [hw, List.length_nil, List.drop_zero]
      exact next k _ hk hkl hn hr.1
    · rw [inflateChunk_needDict rfl hd hset]
      have hlen : ((out.take k).drop
          (infl.inflate z (out.take k) buf.ensureTailroom.tailroom).consumed).length =
          k - (infl.inflate z (out.take k) buf.ensureTailroom.tailroom).consumed := by
        simp [List.length_take_of_le hkl]
      split_ifs with hrest
      · rw [hlen] at hrest
        rw [List.drop_take]
        obtain ⟨z', buf', w, h, hd', hw, hr, hs'⟩ := inflateChunk_streams hs hrest
          (by simp; omega) hroom.ensureTailroom
        rw [List.drop_drop, Nat.add_sub_cancel' hj] at hs'
        exact ⟨z', buf', w, h, by simpa using hd', hw, hr, .streams hs'⟩
      · have hjk : (infl.inflate z (out.take k) buf.ensureTailroom.tailroom).consumed = k := by
          omega
        rw [hjk] at hs
        exact ⟨_, _, [], rfl, by simp, List.nil_prefix, by simpa using hroom.ensureTailroom,
          .streams hs⟩

theorem inflateInput_opens {fuel length : Nat} {cursor : List Bytes} {z : σ}
    {buf : HeaderBuf} {image : Bytes}
    (ho : infl.Opens dict Q z (cursor.flatten.take length) image)
    (hlen : length ≤ cursor.flatten.length) (hcur : ∀ b ∈ cursor, b.length < 2 ^ 32)
    (hroom : buf.RoomFor maxUncompressed image) (hfuel : length + 2 ≤ fuel) :
    ∃ z' buf' cursor', (∀ consumed, inflateInput infl dict maxUncompressed fuel length cursor
        consumed z buf = .ok (z', buf', cursor', consumed + length)) ∧
      buf'.data = buf.data ++ image ∧ Q z' ∧ ∀ b ∈ cursor', b.length < 2 ^ 32 := by
  induction fuel generalizing length cursor z buf image with
  | zero => omega
  | succ fuel ih =>
    cases length with
    | zero =>
      obtain ⟨rfl, hq⟩ := (show infl.Opens dict Q z [] image by simpa using ho).nil
      exact ⟨z, buf, cursor, fun _ => rfl, by simp, hq, hcur⟩
    | succ length =>
      rcases Cursor.peek_cases cursor with ⟨-, hf⟩ | ⟨b, bs, hb, hpeek, hsuf⟩
      · simp [hf] at hlen
      have hbc : b.length < 2 ^ 32 := hcur b (hsuf.subset (List.mem_cons_self _ _))
      have hm : 0 < min b.length (length + 1) :=
        Nat.lt_min.mpr ⟨List.length_pos.mpr hb, Nat.succ_pos _⟩
      have hml : min b.length (length + 1) ≤ (cursor.flatten.take (length + 1)).length := by
        rw [List.length_take_of_le hlen]
        exact Nat.min_le_right _ _
      obtain ⟨f, rfl⟩ : ∃ f, fuel = f + 2 := ⟨fuel - 2, by omega⟩
      obtain ⟨z1, buf1, w, hc, hd1, hw, hroom1, ho1⟩ := inflateChunk_opens ho hm hml hroom
      have hchunk : (cursor.flatten.take (length + 1)).take (min b.length (length + 1)) =
          b.take (min b.length (length + 1)) := by
        rw [List.take_take, Nat.min_eq_left (Nat.min_le_right _ _),
          ← Cursor.take_peek cursor (by rw [hpeek]; exact Nat.min_le_left _ _), hpeek]
      have hskip := Cursor.skip_peek cursor (n := min b.length (length + 1))
        (by rw [hpeek]; exact Nat.min_le_left _ _)
      rw [hpeek] at hskip
      dsimp only at hskip
      rw [List.drop_take, ← hskip] at ho1
      obtain ⟨z', buf', cursor', h, hd', hq, hc'⟩ := ih ho1
        (by rw [hskip, List.length_drop]; omega)
        (by
          rintro x (_ | ⟨_, hx⟩)
          · exact lt_of_le_of_lt (by simp) hbc
          · exact hcur x (hsuf.subset (List.mem_cons_of_mem _ hx)))
        hroom1 (by omega)
      refine ⟨z', buf', cursor', fun consumed => ?_, ?_, hq, hc'⟩
      · rw [inflateInput, hpeek]
        simp only [Nat.mod_eq_of_lt hbc]
        rw [← hchunk, hc]
        simp only [Except.bind]
        rw [h, Nat.add_assoc, Nat.add_sub_cancel' (Nat.min_le_right _ _)]
      · rw [hd', hd1, List.append_assoc, List.prefix_iff_eq_append.mp hw]

end Loops

theorem parseNameValues_nil {w : Nat} (hw : 0 < w) :
    parseNameValues w [] = .error .outOfRange := by
  simp [parseNameValues, parseSize, Nat.not_le.mpr hw]

theorem Inflater.Opens.length_pos {σ : Type} {infl : Inflater σ} {dict : Bytes} {Q : σ → Prop}
    {z : σ} {out image : Bytes} {w : Nat} {x : List HeaderPiece × Nat}
    (ho : infl.Opens dict Q z out image) (hw : 0 < w) (hparse : parseNameValues w image = .ok x) :
    0 < out.length := by
  rcases Nat.eq_zero_or_pos out.length with h | h
  · obtain ⟨rfl, -⟩ := (List.eq_nil_of_length_eq_zero h ▸ ho).nil
    rw [parseNameValues_nil hw] at hparse
    cases hparse
  · exact h

theorem decode_of_inflateInput {σ : Type} {infl : Inflater σ} {vs : VersionSettings}
    {maxUncompressed fuel length : Nat} {st : DecodeState σ} {z : σ} {buf : HeaderBuf}
    {cursor : List Bytes} {ps : List HeaderPiece} {c : Nat} (hpos : 0 < length)
    (hi : inflateInput infl vs.dict maxUncompressed fuel length st.cursor 0 st.inflater
      (getStaticHeaderBufSpace maxUncompressed st.headerBuf) = .ok (z, buf, cursor, length))
    (hparse : parseNameValues vs.nameValueSize buf.data = .ok (ps, c))
    (hexp : c ≤ kMaxExpandedHeaderLineBytes) :
    decode infl vs maxUncompressed fuel st length =
      .ok (⟨ps, length⟩, ⟨z, some buf, cursor, ⟨length, buf.data.length⟩⟩) := by
  simp only [decode, Nat.pos_iff_ne_zero.mp hpos, if_false, hi, Except.bind, decodeTail, hparse,
    if_neg (Nat.not_lt.mpr hexp)]

theorem VersionSettings.nameValueSize_pos (vs : VersionSettings) : 0 < vs.nameValueSize := by
  rcases vs.width_two_or_four with h | h <;> omega

theorem inflateInput_decode_opens {σ : Type} {infl : Inflater σ} {vs : VersionSettings}
    {maxUncompressed fuel length : Nat} {st : DecodeState σ} {Q : σ → Prop} {image : Bytes}
    (ho : infl.Opens vs.dict Q st.inflater (st.cursor.flatten.take length) image)
    (hlen : length ≤ st.cursor.flatten.length) (hcur : ∀ b ∈ st.cursor, b.length < 2 ^ 32)
    (hmax : image.length ≤ maxUncompressed) (hfuel : length + 2 ≤ fuel) :
    ∃ z buf cursor, inflateInput infl vs.dict maxUncompressed fuel length st.cursor 0 st.inflater
        (getStaticHeaderBufSpace maxUncompressed st.headerBuf) = .ok (z, buf, cursor, length) ∧
      buf.data = image ∧ Q z ∧ cursor.flatten = st.cursor.flatten.drop length ∧
      ∀ b ∈ cursor, b.length < 2 ^ 32 := by
  obtain ⟨z, buf, cursor, hi, hd, hq, hc⟩ := inflateInput_opens ho hlen hcur
    (HeaderBuf.roomFor_getStaticHeaderBufSpace st.headerBuf hmax) hfuel
  rw [getStaticHeaderBufSpace_data, List.nil_append] at hd
  have hi0 := Nat.zero_add length ▸ hi 0
  exact ⟨z, buf, cursor, hi0, hd, hq, (inflateInput_ok hi0).2.1, hc⟩

/-- `decode` on a streamed block: when the chain holds the frame's `length` bytes in buffers
shorter than `2^32` bytes and the inflater reads them as one `Z_SYNC_FLUSH` block (with the
dictionary handshake if the stream opens), `decode` returns the parse of the block's image,
consumes the frame, leaves the stream where the block ends and records both sizes. -/
theorem decode_streams {σ : Type} (infl : Inflater σ) (vs : VersionSettings)
    (maxUncompressed fuel length : Nat) (st : DecodeState σ) {Q : σ → Prop} {image : Bytes}
    {ps : List HeaderPiece} {c : Nat}
    (ho : infl.Opens vs.dict Q st.inflater (st.cursor.flatten.take length) image)
    (hlen : length ≤ st.cursor.flatten.length) (hcur : ∀ b ∈ st.cursor, b.length < 2 ^ 32)
    (hmax : image.length ≤ maxUncompressed)
    (hparse : parseNameValues vs.nameValueSize image = .ok (ps, c))
    (hexp : c ≤ kMaxExpandedHeaderLineBytes) (hfuel : length + 2 ≤ fuel) :
    ∃ z buf cursor, decode infl vs maxUncompressed fuel st length =
        .ok (⟨ps, length⟩, ⟨z, some buf, cursor, ⟨length, image.length⟩⟩) ∧ Q z ∧
      buf.data = image ∧ cursor.flatten = st.cursor.flatten.drop length ∧
      ∀ b ∈ cursor, b.length < 2 ^ 32 := by
  have hpos := lt_of_lt_of_le (ho.length_pos vs.nameValueSize_pos hparse) (List.length_take_le _ _)
  obtain ⟨z, buf, cursor, hi, hd, hq, hflat, hc⟩ := inflateInput_decode_opens ho hlen hcur hmax hfuel
  refine ⟨z, buf, cursor, ?_, hq, hd, hflat, hc⟩
  rw [decode_of_inflateInput hpos hi (hd ▸ hparse) hexp, hd]

/-- The error paths on a streamed block: a frame whose image `decode`'s tail rejects (an image
`parseNameValues` refuses, or expanded copies past `kMaxExpandedHeaderLineBytes`) is inflated
whole and then rejected with the tail's error, never with an error of the inflate loop. -/
theorem decode_streams_rejects {σ : Type} (infl : Inflater σ) (vs : VersionSettings)
    (maxUncompressed fuel length : Nat) (st : DecodeState σ) {Q : σ → Prop} {image : Bytes}
    {e : HeaderDecodeError}
    (ho : infl.Opens vs.dict Q st.inflater (st.cursor.flatten.take length) image)
    (hlen : length ≤ st.cursor.flatten.length) (hcur : ∀ b ∈ st.cursor, b.length < 2 ^ 32)
    (hmax : image.length ≤ maxUncompressed) (hfuel : length + 2 ≤ fuel) (hpos : 0 < length)
    (he : decodeTail vs.nameValueSize image length = .error e) :
    decode infl vs maxUncompressed fuel st length = .error (.error e) := by
  obtain ⟨z, buf, cursor, hi, hd, -⟩ := inflateInput_decode_opens ho hlen hcur hmax hfuel
  simp only [decode, Nat.pos_iff_ne_zero.mp hpos, if_false, hi, Except.bind, hd, he]

/-- A test stream in zlib's framing around uncompressed data: it reads a header of `h` bytes,
asks for its dictionary where the header ends, then copies its input. The state is the header
bytes still to read. -/
def Inflater.framed : Inflater Nat where
  inflate h input n :=
    if h = 0 then ⟨zOk, min input.length n, input.take n, 0⟩
    else if input.length < h then ⟨zOk, input.length, [], h - input.length⟩
    else ⟨zNeedDict, h, [], 0⟩
  setDictionary h _ := (zOk, h)
  written_le h input n := by
    dsimp only
    split_ifs <;> simp [List.length_take_le]

theorem framed_inflate_copy (input : Bytes) (n : Nat) :
    Inflater.framed.inflate 0 input n = ⟨zOk, min input.length n, input.take n, 0⟩ := rfl

theorem framed_inflate_header {h : Nat} {input : Bytes} (n : Nat) (hh : h ≠ 0)
    (hl : input.length < h) :
    Inflater.framed.inflate h input n = ⟨zOk, input.length, [], h - input.length⟩ := by
  simp [Inflater.framed, hh, hl]

theorem framed_inflate_needDict {h : Nat} {input : Bytes} (n : Nat) (hh : h ≠ 0)
    (hl : h ≤ input.length) : Inflater.framed.inflate h input n = ⟨zNeedDict, h, [], 0⟩ := by
  simp [Inflater.framed, hh, Nat.not_lt.mpr hl]

theorem framed_streams {Q : Nat → Prop} (hq : Q 0) (out : Bytes) :
    Inflater.framed.Streams Q 0 out out := by
  by_cases hout : out = []
  · subst hout
    exact .done hq
  refine .feed hout (fun k n _ hkl hn => ?_) (fun k n _ hkl hn => ?_)
  · have hkn : k ≤ n := hkl.trans hn
    rw [framed_inflate_copy, List.length_take_of_le hkl, Nat.min_eq_left hkn,
      List.take_take, Nat.min_eq_right hkn]
    exact ⟨rfl, rfl, List.take_prefix _ _⟩
  · rw [framed_inflate_copy, List.take_take, Nat.min_eq_right (hkl.trans hn)]
    dsimp only
    rw [List.length_take_of_le hkl]
    exact framed_streams hq (out.drop k)
termination_by out.length
decreasing_by simp only [List.length_drop]; omega

theorem framed_opens {Q : Nat → Prop} (hq : Q 0) (dict : Bytes) {h : Nat} (hdr image : Bytes)
    (hh : 0 < h) (hlen : hdr.length = h) :
    Inflater.framed.Opens dict Q h (hdr ++ image) image := by
  have hne : hdr ++ image ≠ [] := fun he => by simp_all
  refine .header hne (fun k n _ hkl _ => ?_) (fun k n _ hkl _ hok => ?_)
  · have hk : ((hdr ++ image).take k).length = k := List.length_take_of_le hkl
    by_cases hkh : k < h
    · rw [framed_inflate_header n hh.ne' (by rw [hk]; exact hkh), hk]
      exact .inl ⟨rfl, rfl, List.nil_prefix⟩
    · rw [framed_inflate_needDict n hh.ne' (by rw [hk]; exact Nat.not_lt.mp hkh)]
      refine .inr ⟨rfl, Nat.not_lt.mp hkh, rfl, ?_⟩
      rw [← hlen, List.drop_left]
      exact framed_streams hq image
  · have hk : ((hdr ++ image).take k).length = k := List.length_take_of_le hkl
    by_cases hkh : k < h
    · rw [framed_inflate_header n hh.ne' (by rw [hk]; exact hkh)]
      dsimp only
      rw [hk, List.drop_append_of_le_length (show k ≤ hdr.length by omega)]
      exact framed_opens hq dict (hdr.drop k) image (by omega) (by simp [hlen])
    · rw [framed_inflate_needDict n hh.ne' (by rw [hk]; exact Nat.not_lt.mp hkh)] at hok
      cases hok
termination_by h

theorem decode_streams_framed :
    ∃ z buf cursor, decode Inflater.framed ⟨2, [], .inl rfl⟩ 64 12
        ⟨2, none, [[0x78], [0xbb, 0, 1, 0, 1, 0x61], [0, 1, 0x62]], ⟨0, 0⟩⟩ 10 =
      .ok (⟨[⟨[0x61], false, false⟩, ⟨[0x62], false, false⟩], 10⟩,
        ⟨z, some buf, cursor, ⟨10, 8⟩⟩) ∧ z = 0 ∧ buf.data = [0, 1, 0, 1, 0x61, 0, 1, 0x62] ∧
      cursor.flatten = ([[0x78], [0xbb, 0, 1, 0, 1, 0x61], [0, 1, 0x62]] : List Bytes).flatten.drop 10 ∧
      ∀ b ∈ cursor, b.length < 2 ^ 32 :=
  decode_streams Inflater.framed ⟨2, [], .inl rfl⟩ 64 12 10
    ⟨2, none, [[0x78], [0xbb, 0, 1, 0, 1, 0x61], [0, 1, 0x62]], ⟨0, 0⟩⟩
    (framed_opens (Q := fun z => z = 0) rfl [] [0x78, 0xbb] [0, 1, 0, 1, 0x61, 0, 1, 0x62]
      (by decide) rfl)
    (by decide) (by decide) (by decide) rfl (by decide) (by decide)

theorem decode_streams_rejects_framed :
    decodeTail 2 [0, 1, 0, 5, 0x61] 7 = .error .badEncoding ∧
      decode Inflater.framed ⟨2, [], .inl rfl⟩ 64 9 ⟨2, none, [[0x78, 0xbb, 0, 1], [0, 5, 0x61]], ⟨0, 0⟩⟩
        7 = .error (.error .badEncoding) :=
  ⟨rfl, decode_streams_rejects Inflater.framed ⟨2, [], .inl rfl⟩ 64 9 7
    ⟨2, none, [[0x78, 0xbb, 0, 1], [0, 5, 0x61]], ⟨0, 0⟩⟩
    (framed_opens (Q := fun z => z = 0) rfl [] [0x78, 0xbb] [0, 1, 0, 5, 0x61] (by decide) rfl)
    (by decide) (by decide) (by decide) (by decide) (by decide) rfl⟩

end GzipHeaderCodec
