import Staaash.Library.Grids
import Staaash.Uploads.Coverage

/-!
# Proofs: the chunks of a file

Client and server cut a file along one grid. A range has an index exactly if it is a cell of the grid,
and a list of chunks is complete exactly if it is all the cells in order.
-/

namespace Staaash.Uploads

open Staaash.Library

variable {size chunkSize i : Nat} {range : UploadByteRange} {chunk : CompletedUploadChunk}
  {chunks : List CompletedUploadChunk}

/-! ## Ranges -/

/-- The cell of the grid as a range. -/
def gridRange (size chunkSize i : Nat) : UploadByteRange :=
  ⟨i * chunkSize, cellStop size chunkSize i - 1⟩

/-- The cell of the grid as a chunk. -/
def gridChunk (size chunkSize i : Nat) : CompletedUploadChunk := (gridRange size chunkSize i).chunk i

/-- The chunk ranges are the cells of the grid. -/
theorem getUploadChunkIndex_eq_some (hpos : 0 < chunkSize) :
    getUploadChunkIndex range size chunkSize = some i ↔
      i * chunkSize < size ∧ range = gridRange size chunkSize i := by
  obtain ⟨start, stop⟩ := range
  unfold getUploadChunkIndex expectedEnd gridRange cellStop
  rw [Option.ite_none_right_eq_some]
  simp only [Bool.and_eq_true, decide_eq_true_eq, Option.some.injEq, UploadByteRange.mk.injEq]
  constructor
  · rintro ⟨⟨⟨⟨hle, hlt⟩, hmod⟩, hstop⟩, rfl⟩
    have hstart : start / chunkSize * chunkSize = start :=
      Nat.div_mul_cancel (Nat.dvd_of_mod_eq_zero hmod)
    rw [hstart]
    exact ⟨by omega, rfl, hstop⟩
  · rintro ⟨hlt, rfl, rfl⟩
    refine ⟨⟨⟨⟨?_, ?_⟩, Nat.mul_mod_left i chunkSize⟩, rfl⟩, Nat.mul_div_cancel i hpos⟩
    · omega
    · omega

theorem getUploadChunkIndex_injective (hpos : 0 < chunkSize) {range' : UploadByteRange}
    (h : getUploadChunkIndex range size chunkSize = some i)
    (h' : getUploadChunkIndex range' size chunkSize = some i) : range = range' := by
  obtain ⟨-, rfl⟩ := (getUploadChunkIndex_eq_some hpos).1 h
  obtain ⟨-, rfl⟩ := (getUploadChunkIndex_eq_some hpos).1 h'
  rfl

/-! ## What the client sends -/

/-- The loop gives every start of a cell, as long as it has rounds left for the rest of the file. -/
theorem mem_startsFrom (hpos : 0 < chunkSize) {rounds i start : Nat}
    (hrounds : size ≤ i * chunkSize + rounds) :
    start ∈ startsFrom size chunkSize rounds (i * chunkSize) ↔
      ∃ k, i ≤ k ∧ k * chunkSize < size ∧ start = k * chunkSize := by
  induction rounds generalizing i with
  | zero =>
    refine ⟨fun h => absurd h List.not_mem_nil, ?_⟩
    rintro ⟨k, hk, hlt, -⟩
    have hle := Nat.mul_le_mul_right chunkSize hk
    omega
  | succ rounds ih =>
    unfold startsFrom
    by_cases hlt : i * chunkSize < size
    · have hnext : i * chunkSize + chunkSize = (i + 1) * chunkSize := (Nat.succ_mul i chunkSize).symm
      rw [if_pos hlt, List.mem_cons, hnext, ih (by omega)]
      constructor
      · rintro (rfl | ⟨k, hk, hks, rfl⟩)
        · exact ⟨i, le_rfl, hlt, rfl⟩
        · exact ⟨k, by omega, hks, rfl⟩
      · rintro ⟨k, hk, hks, rfl⟩
        rcases Nat.eq_or_lt_of_le hk with rfl | hik
        · exact .inl rfl
        · exact .inr ⟨k, hik, hks, rfl⟩
    · rw [if_neg hlt]
      refine ⟨fun h => absurd h List.not_mem_nil, ?_⟩
      rintro ⟨k, hk, hks, -⟩
      have hle := Nat.mul_le_mul_right chunkSize hk
      omega

/-- The request for a start of a cell is for the cell. -/
theorem uploadChunk_grid (hlt : i * chunkSize < size) :
    uploadChunk (i * chunkSize) (min chunkSize (size - i * chunkSize)) =
      gridRange size chunkSize i := by
  unfold uploadChunk gridRange cellStop
  rw [UploadByteRange.mk.injEq]
  exact ⟨rfl, by omega⟩

theorem mem_sendFileRanges (hpos : 0 < chunkSize) (done : List Nat) :
    range ∈ sendFileRanges size (some chunkSize) done ↔
      (getUploadChunkIndex range size chunkSize).isSome ∧ range.start ∉ done := by
  have hstarts : ∀ start, start ∈ startsFrom size chunkSize size 0 ↔
      ∃ k, k * chunkSize < size ∧ start = k * chunkSize := by
    intro start
    have hall : start ∈ startsFrom size chunkSize size (0 * chunkSize) ↔ _ := mem_startsFrom hpos (by omega)
    rw [Nat.zero_mul] at hall
    simpa using hall
  unfold sendFileRanges
  simp only [Option.getD_some, List.mem_map, List.mem_filter, hstarts, decide_eq_true_eq]
  rw [Option.isSome_iff_exists]
  constructor
  · rintro ⟨start, ⟨⟨k, hk, rfl⟩, hdone⟩, rfl⟩
    rw [uploadChunk_grid hk]
    exact ⟨⟨k, (getUploadChunkIndex_eq_some hpos).2 ⟨hk, rfl⟩⟩, hdone⟩
  · rintro ⟨⟨k, hindex⟩, hdone⟩
    obtain ⟨hk, rfl⟩ := (getUploadChunkIndex_eq_some hpos).1 hindex
    exact ⟨k * chunkSize, ⟨⟨k, hk, rfl⟩, hdone⟩, uploadChunk_grid hk⟩

/-! ## What the server takes -/

theorem accepted_iff (hpos : 0 < chunkSize) :
    chunk.Accepted size chunkSize ↔
      chunk.chunkIndex * chunkSize < size ∧ chunk = gridChunk size chunkSize chunk.chunkIndex := by
  unfold CompletedUploadChunk.Accepted gridChunk
  constructor
  · rintro ⟨range, hindex, hchunk⟩
    obtain ⟨hlt, rfl⟩ := (getUploadChunkIndex_eq_some hpos).1 hindex
    exact ⟨hlt, hchunk⟩
  · rintro ⟨hlt, hchunk⟩
    exact ⟨_, (getUploadChunkIndex_eq_some hpos).2 ⟨hlt, rfl⟩, hchunk⟩

theorem gridChunk_sizeBytes (hpos : 0 < chunkSize) (hlt : i * chunkSize < size) :
    (gridChunk size chunkSize i).sizeBytes = cellStop size chunkSize i - i * chunkSize := by
  have hwide := start_lt_cellStop hpos hlt
  show cellStop size chunkSize i - 1 - i * chunkSize + 1 = _
  omega

theorem gridChunk_has (hpos : 0 < chunkSize) (hlt : i * chunkSize < size) (byte : Nat) :
    (gridChunk size chunkSize i).has byte ↔
      i * chunkSize ≤ byte ∧ byte < cellStop size chunkSize i := by
  have hwide := start_lt_cellStop hpos hlt
  show i * chunkSize ≤ byte ∧ byte ≤ cellStop size chunkSize i - 1 ↔ _
  omega

/-- All the cells of the grid. -/
def gridChunks (size chunkSize : Nat) : List CompletedUploadChunk :=
  (List.range (cells size chunkSize)).map (gridChunk size chunkSize)

/-- The chunk with which `hasCompleteUploadChunkSet` compares. -/
theorem eq_gridChunk_iff :
    (chunk.chunkIndex = i ∧ chunk.startByte = i * chunkSize ∧
      chunk.endByte = expectedEnd (i * chunkSize) size chunkSize ∧
      chunk.sizeBytes = expectedEnd (i * chunkSize) size chunkSize - i * chunkSize + 1) ↔
      chunk = gridChunk size chunkSize i := by
  obtain ⟨chunkIndex, startByte, endByte, sizeBytes⟩ := chunk
  unfold gridChunk gridRange UploadByteRange.chunk expectedEnd cellStop
  simp only [CompletedUploadChunk.mk.injEq]

/-- The chunks are complete exactly if they are the grid. -/
theorem hasCompleteUploadChunkSet_iff :
    hasCompleteUploadChunkSet chunks size chunkSize = true ↔ chunks = gridChunks size chunkSize := by
  unfold hasCompleteUploadChunkSet gridChunks
  simp only [Bool.and_eq_true, decide_eq_true_eq, List.all_eq_true, and_assoc]
  have hcount : getExpectedUploadChunkCount size chunkSize = cells size chunkSize := rfl
  rw [hcount]
  constructor
  · rintro ⟨hlength, hall⟩
    refine List.ext_getElem (by simpa using hlength) fun i hi _ => ?_
    rw [List.getElem_map, List.getElem_range]
    refine eq_gridChunk_iff.1 (hall (chunks[i], i) ?_)
    rw [List.mem_zipIdx_iff_getElem?]
    exact List.getElem?_eq_getElem hi
  · rintro rfl
    refine ⟨by simp, ?_⟩
    rintro ⟨chunk, i⟩ hmem
    rw [List.mem_zipIdx_iff_getElem?, List.getElem?_map] at hmem
    obtain ⟨k, hk, hchunk⟩ := Option.map_eq_some_iff.1 hmem
    obtain ⟨hlt, hrange⟩ := List.getElem?_eq_some_iff.1 hk
    rw [List.getElem_range] at hrange
    obtain rfl := hrange
    exact eq_gridChunk_iff.2 hchunk.symm

/-! ## Complete files -/

theorem mem_gridChunks (hpos : 0 < chunkSize) :
    chunk ∈ gridChunks size chunkSize ↔ chunk.Accepted size chunkSize := by
  unfold gridChunks
  rw [List.mem_map, accepted_iff hpos]
  constructor
  · rintro ⟨k, hk, rfl⟩
    exact ⟨(lt_cells_iff hpos).1 (List.mem_range.1 hk), rfl⟩
  · rintro ⟨hlt, hchunk⟩
    exact ⟨_, List.mem_range.2 ((lt_cells_iff hpos).2 hlt), hchunk.symm⟩

/-- A byte is in the cell that division finds. -/
theorem accepted_has (hpos : 0 < chunkSize) (hchunk : chunk.Accepted size chunkSize) {byte : Nat} :
    chunk.has byte ↔ byte < size ∧ chunk.chunkIndex = byte / chunkSize := by
  obtain ⟨hlt, heq⟩ := (accepted_iff hpos).1 hchunk
  rw [heq, gridChunk_has hpos hlt]
  show _ ↔ byte < size ∧ chunk.chunkIndex = byte / chunkSize
  constructor
  · rintro ⟨hstart, hstop⟩
    have hbyte : byte < size := by
      unfold cellStop at hstop
      omega
    exact ⟨hbyte, (mem_cell_iff hpos hbyte).1 ⟨hstart, hstop⟩⟩
  · rintro ⟨hbyte, hindex⟩
    exact (mem_cell_iff hpos hbyte).2 hindex

theorem tiles_gridChunks (hpos : 0 < chunkSize) :
    Tiles (gridChunks size chunkSize) size chunkSize := by
  refine ⟨fun chunk hmem => (mem_gridChunks hpos).1 hmem, ?_, fun byte => ⟨fun hbyte => ?_, ?_⟩⟩
  · unfold gridChunks
    rw [List.pairwise_map]
    refine List.Pairwise.imp_of_mem ?_ List.nodup_range
    rintro a b ha hb hne byte ⟨hina, hinb⟩
    have hacc : ∀ k ∈ List.range (cells size chunkSize),
        (gridChunk size chunkSize k).Accepted size chunkSize := fun k hk =>
      (mem_gridChunks hpos).1 (List.mem_map_of_mem hk)
    obtain ⟨-, hindexa⟩ := (accepted_has hpos (hacc a ha)).1 hina
    obtain ⟨-, hindexb⟩ := (accepted_has hpos (hacc b hb)).1 hinb
    exact hne (hindexa.trans hindexb.symm)
  · -- the byte lies in the cell that division finds
    have hcell := (mem_cell_iff hpos hbyte).2 rfl
    have hlt : byte / chunkSize * chunkSize < size := by omega
    exact ⟨_, (mem_gridChunks hpos).2 ((accepted_iff hpos).2 ⟨hlt, rfl⟩),
      (gridChunk_has hpos hlt byte).2 hcell⟩
  · rintro ⟨chunk, hmem, hhas⟩
    exact ((accepted_has hpos ((mem_gridChunks hpos).1 hmem)).1 hhas).1

/-- Chunks in order that are the whole file without overlapping are all the cells in order. -/
theorem Tiles.eq_gridChunks (hpos : 0 < chunkSize) (h : Tiles chunks size chunkSize)
    (horder : chunks.Pairwise fun a b => a.chunkIndex ≤ b.chunkIndex) :
    chunks = gridChunks size chunkSize := by
  have hstrict : (chunks.map (·.chunkIndex)).Pairwise (· < ·) := by
    rw [List.pairwise_map]
    refine List.Pairwise.imp_of_mem ?_ (horder.and h.disjoint)
    rintro a b ha hb ⟨hle, hdisjoint⟩
    refine Nat.lt_of_le_of_ne hle fun heq => ?_
    -- two chunks of one index share their first byte
    obtain ⟨hlta, -⟩ := (accepted_iff hpos).1 (h.accepted a ha)
    have hfirst : a.chunkIndex * chunkSize / chunkSize = a.chunkIndex := Nat.mul_div_cancel _ hpos
    refine hdisjoint (a.chunkIndex * chunkSize) ⟨?_, ?_⟩
    · exact (accepted_has hpos (h.accepted a ha)).2 ⟨hlta, hfirst.symm⟩
    · exact (accepted_has hpos (h.accepted b hb)).2 ⟨hlta, hfirst.symm ▸ heq.symm⟩
  have hmem : ∀ k, k ∈ chunks.map (·.chunkIndex) ↔ k < cells size chunkSize := by
    intro k
    rw [lt_cells_iff hpos, List.mem_map]
    constructor
    · rintro ⟨chunk, hchunk, rfl⟩
      exact ((accepted_iff hpos).1 (h.accepted chunk hchunk)).1
    · intro hlt
      obtain ⟨chunk, hchunk, hhas⟩ := (h.whole _).1 hlt
      refine ⟨chunk, hchunk, ?_⟩
      rw [((accepted_has hpos (h.accepted chunk hchunk)).1 hhas).2]
      exact Nat.mul_div_cancel k hpos
  unfold gridChunks
  rw [← eq_range_of_increasing hstrict hmem, List.map_map]
  refine (List.map_id chunks).symm.trans (List.map_congr_left fun chunk hchunk => ?_)
  exact ((accepted_iff hpos).1 (h.accepted chunk hchunk)).2

/-- The pieces of the cells one after the other are the file. -/
theorem gridChunks_of {α : Type} (hpos : 0 < chunkSize) (bytes : List α) :
    (gridChunks bytes.length chunkSize).flatMap (·.of bytes) = bytes := by
  unfold gridChunks
  rw [List.flatMap_map]
  refine Eq.trans ?_ (flatMap_all_pieces hpos bytes)
  refine List.flatMap_congr fun k hk => ?_
  have hlt : k * chunkSize < bytes.length := (lt_cells_iff hpos).1 (List.mem_range.1 hk)
  unfold CompletedUploadChunk.of piece
  rw [gridChunk_sizeBytes hpos hlt]
  rfl

/-- The sizes of the cells add up to the file. -/
theorem gridChunks_sum (hpos : 0 < chunkSize) :
    ((gridChunks size chunkSize).map (·.sizeBytes)).sum = size := by
  refine Eq.trans (congrArg List.sum ?_) (sum_all_widths (n := size) hpos)
  unfold gridChunks
  rw [List.map_map]
  refine List.map_congr_left fun k hk => ?_
  exact gridChunk_sizeBytes hpos ((lt_cells_iff hpos).1 (List.mem_range.1 hk))

end Staaash.Uploads
