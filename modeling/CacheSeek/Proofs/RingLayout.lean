import CacheSeek.Prefix.Ring

namespace CacheSeek.Proofs.RingLayout
open CacheSeek.Lib CacheSeek.Prefix CacheSeek.Prefix.RingKVWindow

variable {β : Type} {geo : Geometry} {bufFrames : Nat}

theorem sink_le (h : Roomy geo bufFrames) : geo.kvSinkSize ≤ bufFrames := by
  have := h.room
  omega

/-- Frame `g` of the chunks `x`. -/
def frameOf (geo : Geometry) (x : Nat → List β) (g : Nat) : List β :=
  ((x (g / geo.chunkSize)).drop (g % geo.chunkSize * geo.frameTokens)).take geo.frameTokens

theorem frame_fits (hc : 0 < geo.chunkSize) (g : Nat) :
    g % geo.chunkSize * geo.frameTokens + geo.frameTokens ≤ geo.chunkTokens := by
  unfold Geometry.chunkTokens
  rw [← Nat.succ_mul]
  exact Nat.mul_le_mul_right _ (Nat.mod_lt g hc)

theorem length_frameOf (hc : 0 < geo.chunkSize) {x : Nat → List β} {g : Nat}
    (hx : (x (g / geo.chunkSize)).length = geo.chunkTokens) :
    (frameOf geo x g).length = geo.frameTokens := by
  have := frame_fits hc g
  unfold frameOf
  rw [List.length_take, List.length_drop, hx]
  omega

theorem frameOf_congr {x y : Nat → List β} {g : Nat} (h : x (g / geo.chunkSize) = y (g / geo.chunkSize)) :
    frameOf geo x g = frameOf geo y g := by
  simp only [frameOf, h]

/-- The frames of a chunk make up the chunk. -/
theorem chunk_frames (hc : 0 < geo.chunkSize) {x : Nat → List β} {j : Nat}
    (hx : (x j).length = geo.chunkTokens) :
    (List.range' (j * geo.chunkSize) geo.chunkSize).flatMap (frameOf geo x) = x j := by
  rw [List.range'_eq_map_range, List.flatMap_map]
  refine Eq.trans ?_ (flatMap_range_blocks (x j) geo.frameTokens geo.chunkSize hx)
  apply List.flatMap_congr
  intro i hi
  have hi := List.mem_range.mp hi
  have hdiv : (j * geo.chunkSize + i) / geo.chunkSize = j := by
    rw [Nat.add_comm, Nat.add_mul_div_right _ _ hc, Nat.div_eq_of_lt hi, Nat.zero_add]
  have hmod : (j * geo.chunkSize + i) % geo.chunkSize = i := by
    rw [Nat.add_comm, Nat.add_mul_mod_self_right, Nat.mod_eq_of_lt hi]
  simp only [frameOf, hdiv, hmod]

theorem length_physicalFrames (h : geo.kvSinkSize ≤ bufFrames) (total : Nat) :
    (physicalFrames geo bufFrames total).length = min total bufFrames := by
  unfold physicalFrames
  split
  · rw [List.length_range]
    omega
  · rw [List.length_append, List.length_range, List.length_range']
    omega

theorem mem_physicalFrames_lt (h : geo.kvSinkSize ≤ bufFrames) {total g : Nat}
    (hg : g ∈ physicalFrames geo bufFrames total) : g < total := by
  unfold physicalFrames at hg
  split at hg
  · exact List.mem_range.mp hg
  · rcases List.mem_append.mp hg with hg | hg
    · have := List.mem_range.mp hg
      omega
    · have := List.mem_range'_1.mp hg
      omega

theorem range'_eq_append {a n m b : Nat} (h : n ≤ m) (hb : b = a + n) :
    List.range' a m = List.range' a n ++ List.range' b (m - n) := by
  obtain ⟨d, rfl⟩ := Nat.exists_eq_add_of_le h
  rw [Nat.add_sub_cancel_left, hb, List.range'_append_1]

/-- A chunk that fits behind what is there. -/
theorem physicalFrames_append {total : Nat} (hfit : total + geo.chunkSize ≤ bufFrames) :
    physicalFrames geo bufFrames (total + geo.chunkSize) =
      physicalFrames geo bufFrames total ++ List.range' total geo.chunkSize := by
  unfold physicalFrames
  rw [if_pos hfit, if_pos (by omega), List.range_eq_range', List.range_eq_range',
    range'_eq_append (Nat.le_add_right total _) (Nat.zero_add total).symm, Nat.add_sub_cancel_left]

/-- A chunk that pushes the oldest frames behind the sink out. -/
theorem physicalFrames_roll (h : Roomy geo bufFrames) {total : Nat}
    (hfull : bufFrames < total + geo.chunkSize) :
    physicalFrames geo bufFrames (total + geo.chunkSize) =
      (physicalFrames geo bufFrames total).take geo.kvSinkSize ++
        (physicalFrames geo bufFrames total).drop
          (geo.kvSinkSize + (geo.chunkSize + min total bufFrames - bufFrames)) ++
        List.range' total geo.chunkSize := by
  have hroom := h.room
  -- the frames behind the sink: those that stay, then the new chunk
  have hnew : List.range' (total + geo.chunkSize - (bufFrames - geo.kvSinkSize))
      (bufFrames - geo.kvSinkSize) =
      List.range' (total + geo.chunkSize - (bufFrames - geo.kvSinkSize))
        (bufFrames - geo.kvSinkSize - geo.chunkSize) ++ List.range' total geo.chunkSize := by
    rw [range'_eq_append (Nat.sub_le _ geo.chunkSize) (b := total) (by omega)]
    congr 2
    omega
  unfold physicalFrames
  rw [if_neg (by omega), List.append_assoc, hnew]
  split
  · rename_i hle
    rw [Nat.min_eq_left hle, List.take_range, Nat.min_eq_left (by omega), List.range_eq_range' (n := total),
      List.drop_range']
    congr 3 <;> omega
  · rename_i hle
    have hsink : geo.kvSinkSize + (geo.chunkSize + min total bufFrames - bufFrames) =
        (List.range geo.kvSinkSize).length + geo.chunkSize := by
      rw [List.length_range]
      omega
    rw [List.take_append_of_le_length (by simp), List.take_of_length_le (by simp), hsink,
      List.drop_length_add_append, List.drop_range']
    congr 3
    omega

/-- The newest chunk is at the end, behind older frames. -/
theorem physicalFrames_tail (h : Roomy geo bufFrames) (total : Nat) :
    ∃ fs, physicalFrames geo bufFrames (total + geo.chunkSize) =
        fs ++ List.range' total geo.chunkSize ∧
      fs.length = min (total + geo.chunkSize) bufFrames - geo.chunkSize ∧ ∀ g ∈ fs, g < total := by
  have hlen := length_physicalFrames (sink_le h) (total + geo.chunkSize)
  by_cases hfit : total + geo.chunkSize ≤ bufFrames
  · have hframes := physicalFrames_append hfit
    rw [hframes, List.length_append, List.length_range'] at hlen
    exact ⟨_, hframes, by omega, fun g hg => mem_physicalFrames_lt (sink_le h) hg⟩
  · have hframes := physicalFrames_roll h (Nat.not_le.mp hfit)
    rw [hframes, List.length_append, List.length_range'] at hlen
    refine ⟨_, hframes, by omega, fun g hg => ?_⟩
    rcases List.mem_append.mp hg with hg | hg
    · exact mem_physicalFrames_lt (sink_le h) (List.mem_of_mem_take hg)
    · exact mem_physicalFrames_lt (sink_le h) (List.mem_of_mem_drop hg)

/-- A chunk put behind the first `a` frames of the visible part. -/
theorem splice_visible {buf new : List β} {fs : List Nat} {fr : Nat → List β} {ft a c cap : Nat}
    (hfr : ∀ g ∈ fs, (fr g).length = ft) (hvis : buf.take (fs.length * ft) = fs.flatMap fr)
    (hlen : buf.length = cap * ft) (hnew : new.length = c * ft) (ha : a ≤ fs.length)
    (hac : a + c ≤ cap) :
    (splice buf (a * ft) new).take ((a + c) * ft) = (fs.take a).flatMap fr ++ new ∧
      (splice buf (a * ft) new).length = cap * ft := by
  have hle : a * ft + new.length ≤ buf.length := by
    rw [hnew, hlen, ← Nat.add_mul]
    exact Nat.mul_le_mul_right ft hac
  refine ⟨?_, by rw [length_splice hle, hlen]⟩
  rw [take_splice hle (by rw [hnew, Nat.add_mul]), ← take_flatMap_blocks hfr, ← hvis, List.take_take,
    Nat.min_eq_left (Nat.mul_le_mul_right ft ha)]

/-- The frames behind the sink moved up by `e` frames. -/
theorem roll_visible {buf : List β} {fs : List Nat} {fr : Nat → List β} {ft sink e cap : Nat}
    (hfr : ∀ g ∈ fs, (fr g).length = ft) (hvis : buf.take (fs.length * ft) = fs.flatMap fr)
    (hlen : buf.length = cap * ft) (hcap : fs.length ≤ cap) (he : sink + e ≤ fs.length) :
    (splice buf (sink * ft) ((buf.drop (sink * ft + e * ft)).take
        (fs.length * ft - e * ft - sink * ft))).take ((fs.length - e) * ft) =
        (fs.take sink ++ fs.drop (sink + e)).flatMap fr ∧
      (splice buf (sink * ft) ((buf.drop (sink * ft + e * ft)).take
        (fs.length * ft - e * ft - sink * ft))).length = cap * ft := by
  have hmid : fs.length * ft - e * ft - sink * ft = (fs.length - (sink + e)) * ft := by
    rw [Nat.sub_sub, ← Nat.add_mul, ← Nat.sub_mul, Nat.add_comm e sink]
  have hmoved : (buf.drop (sink * ft + e * ft)).take ((fs.length - (sink + e)) * ft) =
      (fs.drop (sink + e)).flatMap fr := by
    rw [← drop_flatMap_blocks hfr, ← hvis, ← Nat.add_mul, List.drop_take, ← Nat.sub_mul]
  have hmovedlen : ((buf.drop (sink * ft + e * ft)).take ((fs.length - (sink + e)) * ft)).length =
      (fs.length - (sink + e)) * ft := by
    rw [hmoved, length_flatMap_blocks fun g hg => hfr g (List.mem_of_mem_drop hg), List.length_drop]
  rw [hmid]
  obtain ⟨h1, h2⟩ := splice_visible hfr hvis hlen hmovedlen (a := sink) (by omega) (by omega)
  refine ⟨?_, h2⟩
  have hend : fs.length - e = sink + (fs.length - (sink + e)) := by omega
  rw [hend, h1, hmoved, List.flatMap_append]

/-- The visible part of a buffer is the frames of the first `K` chunks of `x` that a
buffer of its size keeps. -/
structure Filled (geo : Geometry) (bufFrames K : Nat) (x : Nat → List β) (buf : List β) : Prop where
  length : buf.length = bufFrames * geo.frameTokens
  visible : buf.take (min (K * geo.chunkSize) bufFrames * geo.frameTokens) =
    (physicalFrames geo bufFrames (K * geo.chunkSize)).flatMap (frameOf geo x)

section
variable {K : Nat} {x : Nat → List β} {buf new : List β}

theorem chunk_lt (hc : 0 < geo.chunkSize) {g : Nat} (hg : g < K * geo.chunkSize) :
    g / geo.chunkSize < K :=
  (Nat.div_lt_iff_lt_mul hc).mpr hg

theorem frames_length (h : Roomy geo bufFrames) (hx : ∀ j < K, (x j).length = geo.chunkTokens) :
    ∀ g ∈ physicalFrames geo bufFrames (K * geo.chunkSize),
      (frameOf geo x g).length = geo.frameTokens := fun _ hg =>
  length_frameOf h.chunk (hx _ (chunk_lt h.chunk (mem_physicalFrames_lt (sink_le h) hg)))

/-- The frames before chunk `K` do not see it. -/
theorem frames_update (hc : 0 < geo.chunkSize) {fs : List Nat} (hfs : ∀ g ∈ fs, g < K * geo.chunkSize) :
    fs.flatMap (frameOf geo (Function.update x K new)) = fs.flatMap (frameOf geo x) := by
  apply List.flatMap_congr
  intro g hg
  have hne : g / geo.chunkSize ≠ K := Nat.ne_of_lt (chunk_lt hc (hfs g hg))
  simp only [frameOf, Function.update_of_ne hne]

theorem frames_new (hc : 0 < geo.chunkSize) (hnew : new.length = geo.chunkTokens) :
    (List.range' (K * geo.chunkSize) geo.chunkSize).flatMap
      (frameOf geo (Function.update x K new)) = new := by
  rw [chunk_frames hc (by rwa [Function.update_self]), Function.update_self]

/-- The frames `fs` of the earlier chunks, then chunk `K`. -/
theorem Filled.of_append (hc : 0 < geo.chunkSize) {fs : List Nat}
    (hframes : physicalFrames geo bufFrames ((K + 1) * geo.chunkSize) =
      fs ++ List.range' (K * geo.chunkSize) geo.chunkSize)
    (hfs : ∀ g ∈ fs, g < K * geo.chunkSize) (hnew : new.length = geo.chunkTokens)
    (hlen : buf.length = bufFrames * geo.frameTokens)
    (hvis : buf.take (min ((K + 1) * geo.chunkSize) bufFrames * geo.frameTokens) =
      fs.flatMap (frameOf geo x) ++ new) :
    Filled geo bufFrames (K + 1) (Function.update x K new) buf := by
  refine ⟨hlen, ?_⟩
  rw [hvis, hframes, List.flatMap_append, frames_update hc hfs, frames_new hc hnew]

/-- A chunk written behind the others. -/
theorem Filled.append (h : Filled geo bufFrames K x buf) (hr : Roomy geo bufFrames)
    (hx : ∀ j < K, (x j).length = geo.chunkTokens) (hnew : new.length = geo.chunkTokens)
    (hfit : K * geo.chunkSize + geo.chunkSize ≤ bufFrames) :
    Filled geo bufFrames (K + 1) (Function.update x K new)
      (splice buf (K * geo.chunkSize * geo.frameTokens) new) := by
  have hmin : min (K * geo.chunkSize) bufFrames = K * geo.chunkSize := by omega
  have hlen := length_physicalFrames (sink_le hr) (K * geo.chunkSize)
  rw [hmin] at hlen
  have hvis := h.visible
  rw [hmin] at hvis
  obtain ⟨h1, h2⟩ := splice_visible (frames_length hr hx) (by rwa [hlen]) h.length hnew
    (Nat.le_of_eq hlen.symm) hfit
  rw [List.take_of_length_le (Nat.le_of_eq hlen)] at h1
  refine Filled.of_append hr.chunk ?_ (fun g hg => mem_physicalFrames_lt (sink_le hr) hg) hnew h2 ?_
  · rw [Nat.succ_mul, physicalFrames_append hfit]
  · rw [Nat.succ_mul, Nat.min_eq_left hfit, h1]

/-- A chunk written after the frames behind the sink moved up. -/
theorem Filled.roll (h : Filled geo bufFrames K x buf) (hr : Roomy geo bufFrames)
    (hx : ∀ j < K, (x j).length = geo.chunkTokens) (hnew : new.length = geo.chunkTokens)
    {e : Nat} (he : e = geo.chunkSize + min (K * geo.chunkSize) bufFrames - bufFrames)
    (hfull : bufFrames < K * geo.chunkSize + geo.chunkSize) :
    Filled geo bufFrames (K + 1) (Function.update x K new)
      (splice (splice buf (geo.kvSinkSize * geo.frameTokens)
        ((buf.drop (geo.kvSinkSize * geo.frameTokens + e * geo.frameTokens)).take
          (min (K * geo.chunkSize) bufFrames * geo.frameTokens - e * geo.frameTokens -
            geo.kvSinkSize * geo.frameTokens)))
        ((bufFrames - geo.chunkSize) * geo.frameTokens) new) := by
  have hroom := hr.room
  have hlen := length_physicalFrames (sink_le hr) (K * geo.chunkSize)
  have hall : ∀ g ∈ physicalFrames geo bufFrames (K * geo.chunkSize), g < K * geo.chunkSize :=
    fun g hg => mem_physicalFrames_lt (sink_le hr) hg
  have hblocks := frames_length hr hx
  have hframes := physicalFrames_roll hr hfull
  rw [← he] at hframes
  have hvis := h.visible
  rw [← hlen] at hvis ⊢
  generalize physicalFrames geo bufFrames (K * geo.chunkSize) = fs at *
  obtain ⟨h1, h2⟩ := roll_visible hblocks hvis h.length (e := e) (by omega)
    (show geo.kvSinkSize + e ≤ fs.length by omega)
  -- the frames that stay fill all but the new chunk's place
  have hstay : (fs.take geo.kvSinkSize ++ fs.drop (geo.kvSinkSize + e)).length =
      bufFrames - geo.chunkSize := by
    rw [List.length_append, List.length_take, List.length_drop]
    omega
  have hmem : ∀ g ∈ fs.take geo.kvSinkSize ++ fs.drop (geo.kvSinkSize + e), g ∈ fs := by
    intro g hg
    rcases List.mem_append.mp hg with hg | hg
    · exact List.mem_of_mem_take hg
    · exact List.mem_of_mem_drop hg
  have hgap : fs.length - e = bufFrames - geo.chunkSize := by omega
  rw [hgap] at h1
  generalize splice buf (geo.kvSinkSize * geo.frameTokens) _ = rolled at h1 h2 ⊢
  generalize fs.take geo.kvSinkSize ++ fs.drop (geo.kvSinkSize + e) = stay at *
  obtain ⟨h3, h4⟩ := splice_visible (fun g hg => hblocks g (hmem g hg)) (by rwa [hstay]) h2 hnew
    (Nat.le_of_eq hstay.symm) (show bufFrames - geo.chunkSize + geo.chunkSize ≤ bufFrames by omega)
  rw [List.take_of_length_le (Nat.le_of_eq hstay)] at h3
  refine Filled.of_append hr.chunk ?_ (fun g hg => hall g (hmem g hg)) hnew h4 ?_
  · rw [Nat.succ_mul, hframes]
  · have hmin : min ((K + 1) * geo.chunkSize) bufFrames = bufFrames - geo.chunkSize + geo.chunkSize := by
      rw [Nat.succ_mul]
      omega
    rw [hmin, h3]

/-- The newest chunk written once more, in its place. -/
theorem Filled.again (h : Filled geo bufFrames (K + 1) x buf) (hr : Roomy geo bufFrames)
    (hx : ∀ j < K + 1, (x j).length = geo.chunkTokens) (hnew : new.length = geo.chunkTokens) :
    Filled geo bufFrames (K + 1) (Function.update x K new)
      (splice buf ((min ((K + 1) * geo.chunkSize) bufFrames - geo.chunkSize) * geo.frameTokens)
        new) := by
  have hroom := hr.room
  have hlen := length_physicalFrames (sink_le hr) ((K + 1) * geo.chunkSize)
  have hge : geo.chunkSize ≤ min ((K + 1) * geo.chunkSize) bufFrames := by
    rw [Nat.add_one_mul]
    omega
  have hvis := h.visible
  rw [← hlen] at hvis
  obtain ⟨fs, hframes, hfs, hall⟩ := physicalFrames_tail hr (K * geo.chunkSize)
  rw [← Nat.add_one_mul] at hframes hfs
  obtain ⟨h1, h2⟩ := splice_visible (frames_length hr hx) hvis h.length hnew
    (show fs.length ≤ _ by omega) (show fs.length + geo.chunkSize ≤ bufFrames by omega)
  rw [hframes, List.take_left] at h1
  rw [← hfs]
  refine Filled.of_append hr.chunk hframes hall hnew h2 ?_
  rw [← h1]
  congr 2
  omega

end

/-- A layer's ring after the first `K` chunks, with keys `ck` and values `cv`. -/
structure RingHolds (geo : Geometry) (bufFrames K : Nat) (ck cv : Nat → List β) (kv : KvCache β) :
    Prop where
  k : Filled geo bufFrames K ck kv.k
  v : Filled geo bufFrames K cv kv.v
  globalEnd : kv.globalEnd = K * geo.chunkTokens
  localEnd : kv.localEnd = min (K * geo.chunkSize) bufFrames * geo.frameTokens

section
variable {K : Nat} {ck cv : Nat → List β} {kv : KvCache β} {kNew vNew : List β}

theorem chunkTokens_pos (hr : Roomy geo bufFrames) : 0 < geo.chunkTokens :=
  Nat.mul_pos hr.chunk hr.tokens

theorem overflows_iff (hr : Roomy geo bufFrames) :
    geo.chunkTokens + min (K * geo.chunkSize) bufFrames * geo.frameTokens >
      bufFrames * geo.frameTokens ↔ bufFrames < K * geo.chunkSize + geo.chunkSize := by
  have hroom := hr.room
  have hchunk := hr.chunk
  rw [Geometry.chunkTokens, ← Nat.add_mul, gt_iff_lt, Nat.mul_lt_mul_right hr.tokens]
  omega

/-- A new chunk. -/
theorem RingHolds.write (h : RingHolds geo bufFrames K ck cv kv) (hr : Roomy geo bufFrames)
    (hck : ∀ j < K, (ck j).length = geo.chunkTokens) (hcv : ∀ j < K, (cv j).length = geo.chunkTokens)
    (hk : kNew.length = geo.chunkTokens) (hv : vNew.length = geo.chunkTokens) :
    RingHolds geo bufFrames (K + 1) (Function.update ck K kNew) (Function.update cv K vNew)
      (kvWrite (bufFrames * geo.frameTokens) (geo.kvSinkSize * geo.frameTokens) kv kNew vNew
        (K * geo.chunkTokens)) := by
  have hroom := hr.room
  have hct := chunkTokens_pos hr
  have hend : K * geo.chunkTokens + geo.chunkTokens = (K + 1) * geo.chunkTokens :=
    (Nat.add_one_mul K _).symm
  have hgt : K * geo.chunkTokens + geo.chunkTokens > K * geo.chunkTokens := by omega
  simp only [kvWrite, hk, h.globalEnd, h.localEnd, hgt, true_and, overflows_iff hr]
  split
  · rename_i hfull
    obtain ⟨e, he⟩ : ∃ e, e = geo.chunkSize + min (K * geo.chunkSize) bufFrames - bufFrames :=
      ⟨_, rfl⟩
    have hev : geo.chunkTokens + min (K * geo.chunkSize) bufFrames * geo.frameTokens -
        bufFrames * geo.frameTokens = e * geo.frameTokens := by
      rw [Geometry.chunkTokens, ← Nat.add_mul, ← Nat.sub_mul, he]
    have hlocal : min (K * geo.chunkSize) bufFrames * geo.frameTokens +
        (K * geo.chunkTokens + geo.chunkTokens) - K * geo.chunkTokens - e * geo.frameTokens =
          bufFrames * geo.frameTokens := by
      have hsum : min (K * geo.chunkSize) bufFrames + geo.chunkSize = bufFrames + e := by omega
      have := congrArg (· * geo.frameTokens) hsum
      simp only [Nat.add_mul] at this
      unfold Geometry.chunkTokens
      omega
    have hstart : bufFrames * geo.frameTokens - geo.chunkTokens =
        (bufFrames - geo.chunkSize) * geo.frameTokens := by
      rw [Geometry.chunkTokens, ← Nat.sub_mul]
    rw [hev, hlocal, hstart]
    refine ⟨h.k.roll hr hck hk he hfull, h.v.roll hr hcv hv he hfull, hend, ?_⟩
    rw [Nat.add_one_mul, Nat.min_eq_right (Nat.le_of_lt hfull)]
  · rename_i hfull
    have hfit : K * geo.chunkSize + geo.chunkSize ≤ bufFrames := by omega
    have hlocal : min (K * geo.chunkSize) bufFrames * geo.frameTokens +
        (K * geo.chunkTokens + geo.chunkTokens) - K * geo.chunkTokens =
          (K * geo.chunkSize + geo.chunkSize) * geo.frameTokens := by
      rw [Nat.min_eq_left (by omega), Nat.add_mul, Geometry.chunkTokens]
      omega
    have hstart : (K * geo.chunkSize + geo.chunkSize) * geo.frameTokens - geo.chunkTokens =
        K * geo.chunkSize * geo.frameTokens := by
      rw [Nat.add_mul, Geometry.chunkTokens, Nat.add_sub_cancel]
    rw [hlocal, hstart]
    refine ⟨h.k.append hr hck hk hfit, h.v.append hr hcv hv hfit, hend, ?_⟩
    rw [Nat.add_one_mul, Nat.min_eq_left hfit]

/-- The newest chunk once more. -/
theorem RingHolds.rewrite (h : RingHolds geo bufFrames (K + 1) ck cv kv) (hr : Roomy geo bufFrames)
    (hck : ∀ j < K + 1, (ck j).length = geo.chunkTokens)
    (hcv : ∀ j < K + 1, (cv j).length = geo.chunkTokens)
    (hk : kNew.length = geo.chunkTokens) (hv : vNew.length = geo.chunkTokens) :
    RingHolds geo bufFrames (K + 1) (Function.update ck K kNew) (Function.update cv K vNew)
      (kvWrite (bufFrames * geo.frameTokens) (geo.kvSinkSize * geo.frameTokens) kv kNew vNew
        (K * geo.chunkTokens)) := by
  have hend : K * geo.chunkTokens + geo.chunkTokens = (K + 1) * geo.chunkTokens :=
    (Nat.add_one_mul K _).symm
  simp only [kvWrite, hk, h.globalEnd, h.localEnd, hend, Nat.lt_irrefl, false_and, ↓reduceIte,
    gt_iff_lt, Nat.add_sub_cancel]
  have hstart : min ((K + 1) * geo.chunkSize) bufFrames * geo.frameTokens - geo.chunkTokens =
      (min ((K + 1) * geo.chunkSize) bufFrames - geo.chunkSize) * geo.frameTokens := by
    rw [Geometry.chunkTokens, ← Nat.sub_mul]
  rw [hstart]
  exact ⟨h.k.again hr hck hk, h.v.again hr hcv hv, rfl, rfl⟩

/-- Only the chunks written so far count. -/
theorem RingHolds.congr (hc : 0 < geo.chunkSize) (hs : geo.kvSinkSize ≤ bufFrames)
    (h : RingHolds geo bufFrames K ck cv kv) {ck' cv' : Nat → List β} (hk : ∀ j < K, ck j = ck' j)
    (hv : ∀ j < K, cv j = cv' j) : RingHolds geo bufFrames K ck' cv' kv := by
  have hframes : ∀ {x y : Nat → List β}, (∀ j < K, x j = y j) →
      (physicalFrames geo bufFrames (K * geo.chunkSize)).flatMap (frameOf geo x) =
        (physicalFrames geo bufFrames (K * geo.chunkSize)).flatMap (frameOf geo y) := fun hxy =>
    List.flatMap_congr fun g hg => frameOf_congr (hxy _ (chunk_lt hc (mem_physicalFrames_lt hs hg)))
  exact ⟨⟨h.k.length, h.k.visible.trans (hframes hk)⟩, ⟨h.v.length, h.v.visible.trans (hframes hv)⟩,
    h.globalEnd, h.localEnd⟩

/-- Rings that hold the same chunks look the same. -/
theorem RingHolds.visible_eq {kv' : KvCache β} (h : RingHolds geo bufFrames K ck cv kv)
    (h' : RingHolds geo bufFrames K ck cv kv') : kv.visible = kv'.visible := by
  have hlocal := h.localEnd.trans h'.localEnd.symm
  have hk : kv.k.take kv.localEnd = kv'.k.take kv'.localEnd := by
    rw [h.localEnd, h'.localEnd, h.k.visible, h'.k.visible]
  have hv : kv.v.take kv.localEnd = kv'.v.take kv'.localEnd := by
    rw [h.localEnd, h'.localEnd, h.v.visible, h'.v.visible]
  rw [hlocal] at hk hv
  simp only [KvCache.visible, h.globalEnd.trans h'.globalEnd.symm, hlocal, hk, hv]

end

end CacheSeek.Proofs.RingLayout
