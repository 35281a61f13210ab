import GzipHeaderCodec.Stream

/-! A SPDY connection through two codecs: `encode` on each block at one end, `decode` on each
frame at the other, with zlib keeping the two streams in sync. -/
namespace GzipHeaderCodec

/-- Modelled from the spec: a header block the sending end encodes: its headers and the order
`std::sort` leaves them in. -/
structure Block where
  headers : List Header
  sort : SortOutcome headers

/-- The pieces the receiving end should return for a block: its runs, names lowercased and
values in sort order. -/
def Block.pieces (b : Block) : List HeaderPiece := (runs b.sort.sorted).flatMap Run.pieces

/-- The blocks a connection carries: headers the round trip reads back, within the `W`-byte
fields, an image within the receiver's `maxUncompressed_` and expanded copies within
`kMaxExpandedHeaderLineBytes`. -/
structure Block.Sendable (w other maxUncompressed : Nat) (b : Block) : Prop where
  encodable : Encodable b.headers
  fits : Fits w b.sort.sorted
  image_le : ∀ image, serialize w other b.sort.sorted = .ok image → image.length ≤ maxUncompressed
  expanded_le : ((runs b.sort.sorted).map Run.counter).sum ≤ kMaxExpandedHeaderLineBytes

/-- Modelled from the spec: zlib's guarantee for the two ends of a connection. `Sync d z` says
that the receiving stream `z` has read every block the sending stream `d` wrote; then the block
that `deflate` writes next with `Z_SYNC_FLUSH` is read by `z` as `Inflater.Opens` says, into the
image, and leaves the two ends in sync. -/
def SyncFlush {δ σ : Type} (deflate : δ → Bytes → δ × Bytes) (infl : Inflater σ) (dict : Bytes)
    (Sync : δ → σ → Prop) : Prop :=
  ∀ d z image, Sync d z → infl.Opens dict (Sync (deflate d image).1) z (deflate d image).2 image

/-- Modelled from the spec: the sending end: `encode` on each block in turn, on the codec's
persistent DEFLATE stream; the header blocks of the frames and the `encodedSize_` of each. -/
def encodeAll {δ : Type} (w other : Nat) (deflate : δ → Bytes → δ × Bytes) :
    δ → List Block → Except EncodeFault (List (Bytes × HeaderSize) × δ)
  | d, [] => .ok ([], d)
  | d, b :: bs => (encode w other deflate d b.sort).bind fun (out, d', size) =>
    (encodeAll w other deflate d' bs).map fun (sent, d'') => ((out, size) :: sent, d'')

/-- Modelled from the spec: a frame as the receiving thread sees it: the length of its header
block, and what the thread's other codecs did to the shared scratch buffer before it came. -/
structure Arrival where
  length : Nat
  scratch : Option HeaderBuf → Option HeaderBuf

/-- Modelled from the spec: the receiving end: `decode` on each frame in turn, on the codec's
persistent INFLATE stream and the chain, with the scratch buffer as the thread left it; each
result with the `decodedSize_` after it. -/
def decodeAll {σ : Type} (infl : Inflater σ) (vs : VersionSettings) (maxUncompressed fuel : Nat) :
    DecodeState σ → List Arrival →
      Except DecodeStop (List (HeaderDecodeResult × HeaderSize) × DecodeState σ)
  | st, [] => .ok ([], st)
  | st, a :: as =>
    (decode infl vs maxUncompressed fuel { st with headerBuf := a.scratch st.headerBuf }
      a.length).bind fun (r, st') =>
    (decodeAll infl vs maxUncompressed fuel st' as).map fun (got, st'') =>
      ((r, st'.decodedSize) :: got, st'')

section Connection

variable {δ σ : Type} {deflate : δ → Bytes → δ × Bytes} {infl : Inflater σ} {vs : VersionSettings}
  {Sync : δ → σ → Prop} (hsync : SyncFlush deflate infl vs.dict Sync) {other maxUncompressed : Nat}

/-- What the receiving end needs of its chain: the frames still to come in front, in buffers
shorter than `2^32` bytes. -/
def Carries (frames : Bytes) (cursor : List Bytes) : Prop :=
  frames <+: cursor.flatten ∧ ∀ x ∈ cursor, x.length < 2 ^ 32

include hsync in
/-- One block across the connection: `encode` writes a frame; `decode` of that frame, with the
ends in sync, returns the block's pieces with the sizes the sender recorded, and leaves the ends
in sync and the chain past the frame. -/
theorem decode_encode {b : Block} (hb : b.Sendable vs.nameValueSize other maxUncompressed)
    (d : δ) :
    ∃ out d' size, encode vs.nameValueSize other deflate d b.sort = .ok (out, d', size) ∧
      ∀ (st : DecodeState σ) (fuel : Nat), Sync d st.inflater → Carries out st.cursor →
        out.length + 2 ≤ fuel →
        ∃ st', decode infl vs maxUncompressed fuel st out.length =
            .ok (⟨b.pieces, out.length⟩, st') ∧ st'.decodedSize = size ∧
          Sync d' st'.inflater ∧ Carries [] st'.cursor ∧
          st'.cursor.flatten = st.cursor.flatten.drop out.length := by
  obtain ⟨image, hser, hparse⟩ := parseNameValues_serialize b.sort hb.encodable other hb.fits
  refine ⟨(deflate d image).2, (deflate d image).1, ⟨(deflate d image).2.length, image.length⟩,
    by rw [encode, hser]; rfl, fun st fuel hd hc hfuel => ?_⟩
  have ho := List.prefix_iff_eq_take.mp hc.1 ▸ hsync d st.inflater image hd
  have hpos := lt_of_lt_of_le (ho.length_pos vs.nameValueSize_pos hparse) (List.length_take_le _ _)
  obtain ⟨z, buf, cursor, hi, hbuf, hq, hflat, hcur⟩ :=
    inflateInput_decode_opens ho hc.1.length_le hc.2 (hb.image_le image hser) hfuel
  exact ⟨_, decode_of_inflateInput hpos hi (hbuf ▸ hparse) hb.expanded_le, by rw [hbuf], hq,
    ⟨List.nil_prefix, hcur⟩, hflat⟩

include hsync in
/-- A SPDY connection: for every run of sendable blocks the sending end writes its frames, and
the receiving end, with the ends in sync, its chain holding those frames in buffers shorter than
`2^32` bytes, and any use of the thread's scratch buffer between frames, returns every block's
pieces in order with the sizes the sender recorded, consumes exactly the frames, and is left in
sync with the sender. -/
theorem connection_roundTrip (blocks : List Block)
    (hblocks : ∀ b ∈ blocks, b.Sendable vs.nameValueSize other maxUncompressed) (d : δ) :
    ∃ sent d', encodeAll vs.nameValueSize other deflate d blocks = .ok (sent, d') ∧
      ∀ (st : DecodeState σ) (arrivals : List Arrival) (fuel : Nat), Sync d st.inflater →
        Carries (sent.map Prod.fst).flatten st.cursor →
        arrivals.map Arrival.length = sent.map (fun s => s.1.length) →
        (∀ s ∈ sent, s.1.length + 2 ≤ fuel) →
        ∃ got st', decodeAll infl vs maxUncompressed fuel st arrivals = .ok (got, st') ∧
          got.map (fun g => g.1.headers) = blocks.map Block.pieces ∧
          got.map Prod.snd = sent.map Prod.snd ∧ Sync d' st'.inflater ∧
          st'.cursor.flatten = st.cursor.flatten.drop (sent.map Prod.fst).flatten.length := by
  induction blocks generalizing d with
  | nil =>
    refine ⟨[], d, rfl, fun st arrivals fuel hd _ harr _ => ?_⟩
    rw [List.map_eq_nil_iff.mp harr]
    exact ⟨[], st, rfl, rfl, rfl, hd, rfl⟩
  | cons b bs ih =>
    obtain ⟨out, d1, size, henc, hstep⟩ :=
      decode_encode hsync (hblocks b (List.mem_cons_self _ _)) d
    obtain ⟨sent, d', hencs, hrun⟩ := ih (fun b hb => hblocks b (List.mem_cons_of_mem _ hb)) d1
    refine ⟨(out, size) :: sent, d', by rw [encodeAll, henc]; simp only [Except.bind]; rw [hencs]; rfl,
      fun st arrivals fuel hd hc harr hfuel => ?_⟩
    obtain ⟨a, as, rfl, ha, has⟩ := List.map_eq_cons_iff.mp harr
    simp only [List.map_cons, List.flatten_cons] at hc
    obtain ⟨st1, hdec, hsize, hd1, hcur1, hflat1⟩ := hstep { st with headerBuf := a.scratch st.headerBuf }
      fuel hd ⟨(List.prefix_append _ _).trans hc.1, hc.2⟩ (hfuel _ (List.mem_cons_self _ _))
    dsimp only at hflat1
    have hc1 : Carries (sent.map Prod.fst).flatten st1.cursor := by
      refine ⟨?_, hcur1.2⟩
      obtain ⟨t, ht⟩ := hc.1
      rw [hflat1, ← ht, List.append_assoc, List.drop_left]
      exact List.prefix_append _ _
    obtain ⟨got, st', hdecs, hheaders, hsizes, hd', hflat'⟩ :=
      hrun st1 as fuel hd1 hc1 has fun s hs => hfuel s (List.mem_cons_of_mem _ hs)
    refine ⟨(⟨b.pieces, out.length⟩, size) :: got, st', ?_, by simp [hheaders], by simp [hsizes],
      hd', ?_⟩
    · rw [decodeAll, ha, hdec]
      simp only [Except.bind]
      rw [hdecs, hsize]
      rfl
    · rw [hflat', hflat1, List.drop_drop]
      simp

end Connection

/- A test connection -/

/-- A test sender for `Inflater.framed`: the first block goes out behind a two-byte header, and
every block goes out uncompressed. -/
def deflateFramed : Bool → Bytes → Bool × Bytes
  | false, image => (true, [0x78, 0xbb] ++ image)
  | true, image => (true, image)

def FramedSync (d : Bool) (z : Nat) : Prop := (d = false ∧ z = 2) ∨ (d = true ∧ z = 0)

theorem framed_syncFlush (dict : Bytes) : SyncFlush deflateFramed Inflater.framed dict FramedSync := by
  rintro d z image (⟨rfl, rfl⟩ | ⟨rfl, rfl⟩)
  · exact framed_opens (.inr ⟨rfl, rfl⟩) dict [0x78, 0xbb] image (by decide) rfl
  · exact .streams (framed_streams (.inr ⟨rfl, rfl⟩) image)

def framedBlocks : List Block :=
  [⟨[⟨1, [0x61], [0x62]⟩], .insertion _⟩, ⟨[⟨2, [0x63], [0x64]⟩, ⟨2, [0x63], [0x65]⟩], .insertion _⟩]

theorem framedBlocks_sendable : ∀ b ∈ framedBlocks, b.Sendable 2 0 64 := by
  intro b hb
  simp only [framedBlocks, List.mem_cons, List.not_mem_nil, or_false] at hb
  rcases hb with rfl | rfl <;>
    exact ⟨⟨by decide, by decide, by decide, by decide⟩, ⟨by decide, by decide, by decide, by decide⟩,
      fun image h => by cases h; decide, by decide⟩

end GzipHeaderCodec
