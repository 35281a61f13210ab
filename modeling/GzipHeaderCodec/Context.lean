import GzipHeaderCodec.Session

/-! `getZlibContext` and the constructor: the thread's map of stream templates per SPDY version
and level. Over any run of constructions the map is unobservable. -/
namespace GzipHeaderCodec

def zNoCompression : Int := 0

def zDeflated : Int := 8

def zDefaultStrategy : Int := 0

/-- Modelled from the spec: zlib's set-up calls (not in src/) for DEFLATE streams `δ` and
INFLATE streams `σ`: `deflateInit2(level, method, windowBits, memLevel, strategy)`,
`deflateSetDictionary` and `inflateInit`, each with its return code and the stream it leaves. -/
structure ZlibInit (δ σ : Type) where
  deflateInit2 : Int → Int → Int → Int → Int → Int × δ
  deflateSetDictionary : δ → Bytes → Int × δ
  inflateInit : Int × σ

/-- Modelled from the spec: `ZlibConfig`, the key of the map: version and compression level. -/
structure ZlibConfig where
  version : Nat
  level : Int
deriving DecidableEq, Repr

/-- Modelled from the spec: `ZlibContext`, a template's two streams. -/
structure ZlibContext (δ σ : Type) where
  deflater : δ
  inflater : σ

/-- The thread's `zlibContexts_`. -/
abbrev ZlibContextMap (δ σ : Type) := List (ZlibConfig × ZlibContext δ σ)

section Templates

variable {δ σ : Type} (zi : ZlibInit δ σ)

/-- The miss branch of `getZlibContext`: a new template for `level` with the version's
dictionary; `none` where a `CHECK(r == Z_OK)` fails and the process aborts. -/
def newZlibContext (dict : Bytes) (level : Int) : Option (ZlibContext δ σ) :=
  let windowBits : Int := if level = zNoCompression then 8 else 11
  let (r, deflater) := zi.deflateInit2 level zDeflated windowBits 1 zDefaultStrategy
  if r ≠ zOk then none
  else
    let (r, deflater) :=
      if level ≠ zNoCompression then zi.deflateSetDictionary deflater dict else (zOk, deflater)
    if r ≠ zOk then none
    else
      let (r, inflater) := zi.inflateInit
      if r ≠ zOk then none else some ⟨deflater, inflater⟩

/-- `getZlibContext(versionSettings, compressionLevel)` on the thread's map, `version` standing
for `versionSettings.version`: the stored template for `(version, level)`, or a new one, stored
before it is returned. -/
def getZlibContext (version : Nat) (vs : VersionSettings) (level : Int)
    (cache : ZlibContextMap δ σ) : Option (ZlibContext δ σ × ZlibContextMap δ σ) :=
  match cache.lookup ⟨version, level⟩ with
  | some ctx => some (ctx, cache)
  | none => (newZlibContext zi vs.dict level).map fun ctx => (ctx, (⟨version, level⟩, ctx) :: cache)

/-- The constructor `GzipHeaderCodec(compressionLevel, versionSettings)`: `deflateCopy` and
`inflateCopy` clone the template's streams into the codec's `deflater_` and `inflater_`. -/
def gzipHeaderCodec (version : Nat) (vs : VersionSettings) (level : Int)
    (cache : ZlibContextMap δ σ) : Option (ZlibContext δ σ × ZlibContextMap δ σ) :=
  (getZlibContext zi version vs level cache).map fun (ctx, cache) =>
    (⟨ctx.deflater, ctx.inflater⟩, cache)

/-- Modelled from the spec: a thread constructing codecs, one `(version, settings, level)` at a
time; the streams each codec starts with, and the map after. -/
def constructAll : ZlibContextMap δ σ → List (Nat × VersionSettings × Int) →
    Option (List (ZlibContext δ σ) × ZlibContextMap δ σ)
  | cache, [] => some ([], cache)
  | cache, (version, vs, level) :: reqs =>
    (gzipHeaderCodec zi version vs level cache).bind fun (ctx, cache) =>
      (constructAll cache reqs).map fun (ctxs, cache) => (ctx :: ctxs, cache)

/-- Every template in the map is the one a new build for its key gives, `dictOf` naming each
version's dictionary. -/
def Cached (dictOf : Nat → Bytes) (cache : ZlibContextMap δ σ) : Prop :=
  ∀ k ctx, (k, ctx) ∈ cache → newZlibContext zi (dictOf k.version) k.level = some ctx

end Templates

theorem lookup_mem {α β : Type} [DecidableEq α] {k : α} {v : β} :
    ∀ {l : List (α × β)}, l.lookup k = some v → (k, v) ∈ l
  | [], h => by cases h
  | (k', v') :: l, h => by
    rw [List.lookup_cons] at h
    split at h
    next heq =>
      cases h
      rw [beq_iff_eq.mp heq]
      exact List.mem_cons_self _ _
    next => exact List.mem_cons_of_mem _ (lookup_mem h)

theorem lookup_eq_none {α β : Type} [DecidableEq α] {k : α} :
    ∀ {l : List (α × β)}, l.lookup k = none → k ∉ l.map Prod.fst
  | [], _ => List.not_mem_nil _
  | (k', v') :: l, h => by
    rw [List.lookup_cons] at h
    split at h
    · cases h
    · simp only [List.map_cons, List.mem_cons, not_or]
      exact ⟨fun hk => by simp_all only [beq_self_eq_true, Bool.true_eq_false], lookup_eq_none h⟩

section Cache

variable {δ σ : Type} {zi : ZlibInit δ σ} {dictOf : Nat → Bytes}

theorem cached_nil : Cached zi dictOf [] := fun _ _ h => absurd h (List.not_mem_nil _)

theorem Cached.gzipHeaderCodec_fresh {cache : ZlibContextMap δ σ} (hc : Cached zi dictOf cache)
    (hnd : (cache.map Prod.fst).Nodup) {version : Nat} {vs : VersionSettings} (level : Int)
    (hv : vs.dict = dictOf version) :
    (gzipHeaderCodec zi version vs level cache).map Prod.fst = newZlibContext zi vs.dict level ∧
      ∀ r ∈ gzipHeaderCodec zi version vs level cache, Cached zi dictOf r.2 ∧
        (r.2.map Prod.fst).Nodup ∧
        ∀ k, k ∈ r.2.map Prod.fst ↔ k ∈ cache.map Prod.fst ∨ k = ⟨version, level⟩ := by
  unfold gzipHeaderCodec getZlibContext
  split
  · rename_i ctx hl
    have hfresh := hc _ _ (lookup_mem hl)
    rw [← hv] at hfresh
    refine ⟨by simp only [Option.map_some', hfresh], ?_⟩
    rintro r ⟨⟩
    refine ⟨hc, hnd, fun k => ⟨.inl, ?_⟩⟩
    rintro (hk | rfl)
    · exact hk
    · exact List.mem_map_of_mem _ (lookup_mem hl)
  · rename_i hl
    cases hnew : newZlibContext zi vs.dict level with
    | none => exact ⟨rfl, fun r hr => nomatch hr⟩
    | some ctx =>
      refine ⟨rfl, ?_⟩
      rintro r ⟨⟩
      refine ⟨?_, List.nodup_cons.mpr ⟨lookup_eq_none hl, hnd⟩, fun k => ?_⟩
      · rintro k c (⟨⟩ | ⟨_, hk⟩)
        · rwa [← hv]
        · exact hc k c hk
      · simp only [List.map_cons, List.mem_cons, or_comm]

/-- The template map over a run of constructions on a thread: when the requests' settings
name one dictionary per version, every codec starts from the streams a new template for its
request would have (and the run aborts exactly where building one would), whatever the map held
before; the map keeps one template per key, its keys being those it had and those requested. -/
theorem constructAll_fresh (zi : ZlibInit δ σ) (dictOf : Nat → Bytes)
    (reqs : List (Nat × VersionSettings × Int)) (hreqs : ∀ q ∈ reqs, q.2.1.dict = dictOf q.1)
    (cache : ZlibContextMap δ σ) (hc : Cached zi dictOf cache) (hnd : (cache.map Prod.fst).Nodup) :
    (constructAll zi cache reqs).map Prod.fst =
        reqs.mapM (fun q => newZlibContext zi q.2.1.dict q.2.2) ∧
      ∀ r ∈ constructAll zi cache reqs, Cached zi dictOf r.2 ∧ (r.2.map Prod.fst).Nodup ∧
        ∀ k, k ∈ r.2.map Prod.fst ↔
          k ∈ cache.map Prod.fst ∨ ∃ q ∈ reqs, k = ⟨q.1, q.2.2⟩ := by
  induction reqs generalizing cache with
  | nil =>
    refine ⟨rfl, ?_⟩
    rintro r ⟨⟩
    exact ⟨hc, hnd, fun k => (or_iff_left fun ⟨_, h, _⟩ => List.not_mem_nil _ h).symm⟩
  | cons q reqs ih =>
    obtain ⟨version, vs, level⟩ := q
    obtain ⟨hfirst, hstep⟩ := hc.gzipHeaderCodec_fresh hnd level (hreqs _ (List.mem_cons_self _ _))
    simp only [constructAll, List.mapM_cons]
    rcases h1 : gzipHeaderCodec zi version vs level cache with _ | ⟨ctx, cache1⟩ <;>
      rw [h1] at hfirst hstep
    · rw [← hfirst]
      exact ⟨rfl, fun r hr => nomatch hr⟩
    · obtain ⟨hc1, hnd1, hk1⟩ := hstep (ctx, cache1) rfl
      obtain ⟨hmap, hrun⟩ := ih (fun q hq => hreqs q (List.mem_cons_of_mem _ hq)) cache1 hc1 hnd1
      rw [← hfirst, ← hmap, Option.some_bind]
      rcases h2 : constructAll zi cache1 reqs with _ | ⟨ctxs, cache2⟩
      · exact ⟨rfl, fun r hr => nomatch hr⟩
      obtain ⟨hc2, hnd2, hk2⟩ := hrun _ h2
      refine ⟨rfl, ?_⟩
      rintro r ⟨⟩
      refine ⟨hc2, hnd2, fun k => ?_⟩
      rw [hk2 k, hk1 k]
      simp only [List.mem_cons, exists_eq_or_imp, or_assoc]

end Cache

/-- From the constructors to the frames: a sending and a receiving codec built by the
constructor for one SPDY version, on two threads whatever each built before, start in sync when
zlib puts new DEFLATE and INFLATE templates in sync, and then carry every run of sendable blocks
as `connection_roundTrip` says. -/
theorem constructed_connection {δ σ : Type} (zi : ZlibInit δ σ) (dictOf : Nat → Bytes)
    {deflate : δ → Bytes → δ × Bytes} {infl : Inflater σ} {vs : VersionSettings}
    {Sync : δ → σ → Prop} (hsync : SyncFlush deflate infl vs.dict Sync)
    (hinit : ∀ ℓ ℓ' s r, newZlibContext zi vs.dict ℓ = some s →
      newZlibContext zi vs.dict ℓ' = some r → Sync s.deflater r.inflater)
    {version : Nat} (hv : vs.dict = dictOf version) {cacheS cacheR : ZlibContextMap δ σ}
    (hcS : Cached zi dictOf cacheS) (hndS : (cacheS.map Prod.fst).Nodup)
    (hcR : Cached zi dictOf cacheR) (hndR : (cacheR.map Prod.fst).Nodup)
    {levelS levelR : Int} {sender receiver : ZlibContext δ σ} {cacheS' cacheR' : ZlibContextMap δ σ}
    (hS : gzipHeaderCodec zi version vs levelS cacheS = some (sender, cacheS'))
    (hR : gzipHeaderCodec zi version vs levelR cacheR = some (receiver, cacheR'))
    (other maxUncompressed : Nat) (blocks : List Block)
    (hblocks : ∀ b ∈ blocks, b.Sendable vs.nameValueSize other maxUncompressed) :
    ∃ sent d', encodeAll vs.nameValueSize other deflate sender.deflater blocks = .ok (sent, d') ∧
      ∀ (st : DecodeState σ) (arrivals : List Arrival) (fuel : Nat),
        st.inflater = receiver.inflater → Carries (sent.map Prod.fst).flatten st.cursor →
        arrivals.map Arrival.length = sent.map (fun s => s.1.length) →
        (∀ s ∈ sent, s.1.length + 2 ≤ fuel) →
        ∃ got st', decodeAll infl vs maxUncompressed fuel st arrivals = .ok (got, st') ∧
          got.map (fun g => g.1.headers) = blocks.map Block.pieces ∧
          got.map Prod.snd = sent.map Prod.snd ∧ Sync d' st'.inflater ∧
          st'.cursor.flatten = st.cursor.flatten.drop (sent.map Prod.fst).flatten.length := by
  have hs := (hcS.gzipHeaderCodec_fresh hndS levelS hv).1
  have hr := (hcR.gzipHeaderCodec_fresh hndR levelR hv).1
  rw [hS] at hs
  rw [hR] at hr
  have hsr := hinit levelS levelR sender receiver hs.symm hr.symm
  obtain ⟨sent, d', henc, hrun⟩ := connection_roundTrip hsync blocks hblocks sender.deflater
  exact ⟨sent, d', henc, fun st arrivals fuel hst => hrun st arrivals fuel (hst ▸ hsr)⟩

def ZlibInit.recorded : ZlibInit (Int × Int × Bytes) Unit where
  deflateInit2 level _ windowBits _ _ := (zOk, (level, windowBits, []))
  deflateSetDictionary d dict := (zOk, (d.1, d.2.1, dict))
  inflateInit := (zOk, ())

theorem constructAll_fresh_recorded :
    (constructAll ZlibInit.recorded [] [(3, ⟨4, [7], .inr rfl⟩, 6), (3, ⟨4, [7], .inr rfl⟩, 6),
        (3, ⟨4, [7], .inr rfl⟩, 0)]).map Prod.fst =
      [(3, (⟨4, [7], .inr rfl⟩ : VersionSettings), (6 : Int)), (3, ⟨4, [7], .inr rfl⟩, 6),
        (3, ⟨4, [7], .inr rfl⟩, 0)].mapM (fun q => newZlibContext ZlibInit.recorded q.2.1.dict q.2.2) ∧
    ∀ r ∈ constructAll ZlibInit.recorded [] [(3, ⟨4, [7], .inr rfl⟩, 6),
        (3, ⟨4, [7], .inr rfl⟩, 6), (3, ⟨4, [7], .inr rfl⟩, 0)],
      Cached ZlibInit.recorded (fun _ => [7]) r.2 ∧ (r.2.map Prod.fst).Nodup ∧
      ∀ k, k ∈ r.2.map Prod.fst ↔ k ∈ ([] : ZlibContextMap (Int × Int × Bytes) Unit).map Prod.fst ∨
        ∃ q ∈ [(3, (⟨4, [7], .inr rfl⟩ : VersionSettings), (6 : Int)), (3, ⟨4, [7], .inr rfl⟩, 6),
          (3, ⟨4, [7], .inr rfl⟩, 0)], k = ⟨q.1, q.2.2⟩ :=
  constructAll_fresh ZlibInit.recorded (fun _ => [7]) _ (by decide) [] cached_nil List.nodup_nil

/-- A test set-up for the test streams `deflateFramed` and `Inflater.framed`: a new DEFLATE
stream has not yet sent its header, a new INFLATE stream waits for a two-byte header. -/
def ZlibInit.framed : ZlibInit Bool Nat where
  deflateInit2 _ _ _ _ _ := (zOk, false)
  deflateSetDictionary d _ := (zOk, d)
  inflateInit := (zOk, 2)

theorem newZlibContext_framed (dict : Bytes) (level : Int) :
    newZlibContext ZlibInit.framed dict level = some ⟨false, 2⟩ := by
  unfold newZlibContext
  split_ifs <;> rfl

theorem constructed_connection_framed :
    ∃ sent d', encodeAll 2 0 deflateFramed false framedBlocks = .ok (sent, d') ∧
      ∀ (st : DecodeState Nat) (arrivals : List Arrival) (fuel : Nat),
        st.inflater = 2 → Carries (sent.map Prod.fst).flatten st.cursor →
        arrivals.map Arrival.length = sent.map (fun s => s.1.length) →
        (∀ s ∈ sent, s.1.length + 2 ≤ fuel) →
        ∃ got st', decodeAll Inflater.framed ⟨2, [], .inl rfl⟩ 64 fuel st arrivals = .ok (got, st') ∧
          got.map (fun g => g.1.headers) = framedBlocks.map Block.pieces ∧
          got.map Prod.snd = sent.map Prod.snd ∧ FramedSync d' st'.inflater ∧
          st'.cursor.flatten = st.cursor.flatten.drop (sent.map Prod.fst).flatten.length :=
  @constructed_connection Bool Nat ZlibInit.framed (fun _ => []) deflateFramed Inflater.framed
    ⟨2, [], .inl rfl⟩ FramedSync (framed_syncFlush [])
    (fun ℓ ℓ' s r hs hr => by
      rw [newZlibContext_framed] at hs hr
      cases hs
      cases hr
      exact .inl ⟨rfl, rfl⟩)
    3 rfl [] [] cached_nil List.nodup_nil cached_nil List.nodup_nil 6 0 ⟨false, 2⟩ ⟨false, 2⟩ _ _
    rfl rfl 0 64 framedBlocks framedBlocks_sendable

end GzipHeaderCodec
