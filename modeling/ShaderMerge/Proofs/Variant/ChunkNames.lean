import ShaderMerge.Proofs.Number.Hexadecimal
import ShaderMerge.Proofs.Variant.Wholeness

/-!
# The names of chunks

The name of a chunk ends in the sixteen digits of the hash of its lines, so two chunks with one name
have one hash (`hash_of_chunkName`).  They have the same lines as well, unless their hashes collide
(`lines_of_name`): the hash has 64 bits, so this is asked of the chunks at hand (`HashesApart`) and
not of all texts.

A writer names each chunk from its own lines and makes no two of one name (`named_run`).
-/

namespace ShaderMerge

namespace ContentHash

theorem length_text (hash : UInt64) : (text hash).toList.length = 16 := by
  have hle : (Nat.toDigits 16 hash.toNat).length ≤ 16 :=
    (Nat.length_toDigits_le_iff (by decide) (by decide)).2 hash.toNat_lt
  rw [text, String.toList_ofList, List.length_append, List.length_replicate]
  exact Nat.sub_add_cancel hle

/-- The digits tell a hash from all others. -/
theorem text_injective {hash other : UInt64} (h : text hash = text other) : hash = other := by
  have hdigits := congrArg (fun text => numberOf text.toList) h
  simp only [text, String.toList_ofList, numberOf_padded, numberOf_toDigits] at hdigits
  exact UInt64.toNat_inj.1 hdigits

end ContentHash

namespace Variant

open Include (Walk Event Moment Run)

/-- Chunks of one name have lines of one hash. -/
theorem hash_of_chunkName {stem stem' : String} {hash hash' : UInt64}
    (h : chunkName stem hash = chunkName stem' hash') : hash = hash' := by
  have hlists := congrArg String.toList h
  simp only [chunkName, String.toList_append] at hlists
  -- Both names have sixteen digits in front of the same ending.
  have hfronts := List.append_inj_left' hlists rfl
  have htexts := List.append_inj_right' hfronts
    ((ContentHash.length_text hash).trans (ContentHash.length_text hash').symm)
  exact ContentHash.text_injective (String.toList_inj.1 htexts)

/-- Whether no two of some files have different lines and one hash. -/
def HashesApart (files : List GeneratedFile) : Prop :=
  ∀ f ∈ files, ∀ f' ∈ files,
    ContentHash.ofLines f.lines = ContentHash.ofLines f'.lines → f.lines = f'.lines

instance (files : List GeneratedFile) : Decidable (HashesApart files) :=
  inferInstanceAs (Decidable (∀ f ∈ files, ∀ f' ∈ files, _ → _))

/-- Whether the name of a chunk is made from its own lines. -/
def GeneratedFile.IsChunk (chunk : GeneratedFile) : Prop :=
  ∃ target, chunk = chunkOf target chunk.lines

theorem HashesApart.lines_of_name {files : List GeneratedFile} (h : HashesApart files)
    {chunk other : GeneratedFile} (hchunk : chunk ∈ files) (hother : other ∈ files)
    (hmade : chunk.IsChunk) (hmade' : other.IsChunk) (hname : chunk.name = other.name) :
    chunk.lines = other.lines := by
  obtain ⟨target, hmade⟩ := hmade
  obtain ⟨target', hmade'⟩ := hmade'
  rw [hmade, hmade'] at hname
  exact h chunk hchunk other hother (hash_of_chunkName hname)

/-- Each chunk has a name of its own, made from its lines. -/
structure Named (chunks : List GeneratedFile) : Prop where
  made : ∀ chunk ∈ chunks, chunk.IsChunk
  nodup : (chunks.map (·.name)).Nodup

theorem Named.nil : Named [] := ⟨by simp, List.nodup_nil⟩

theorem Named.addChunk {chunks : List GeneratedFile} (h : Named chunks) (target : String)
    (lines : List String) : Named (Sound.addChunk chunks (chunkOf target lines)) := by
  rw [Sound.addChunk]
  split
  · exact h
  · rename_i hany
    refine ⟨List.forall_mem_append.2 ⟨h.made, List.forall_mem_singleton.2 ⟨target, rfl⟩⟩, ?_⟩
    rw [List.map_append, List.nodup_append]
    refine ⟨h.nodup, by simp, ?_⟩
    intro name hname other hother hsame
    obtain ⟨chunk, hchunk, rfl⟩ := List.mem_map.1 hname
    rw [List.map_singleton, List.mem_singleton] at hother
    exact hany (List.any_eq_true.2 ⟨chunk, hchunk, by simpa using hsame.trans hother⟩)

variable {r : Request} {w w' : Writer} {walk walk' : Walk}

theorem named_run {moments : List (Moment Writer)}
    (hrun : Run r.shader.sources (Writer.event r) w walk moments w' walk') (h : Named w.chunks) :
    Named w'.chunks := by
  refine hrun.invariant (P := fun w => Named w.chunks) h ?_
  intro w walk event w' walk' hnamed hstep
  rcases chunks_event hstep with hsame | ⟨target, lines, hadded⟩
  · exact hsame ▸ hnamed
  · exact hadded ▸ hnamed.addChunk target lines

theorem named_of_variant {shader : Shader} {o : Options} {g : GeneratedShader}
    (hvariant : shader.variant o = .ok g) : Named g.chunks := by
  obtain ⟨substitution, w, walk, -, hrun, -, hfinish⟩ := Writer.writes_moments hvariant
  obtain ⟨w', hreleased, hchunks, -⟩ := finish_eq hfinish
  rw [hchunks, hreleased.chunks]
  exact @named_run ⟨shader, o, substitution⟩ _ _ _ _ _ hrun .nil

end Variant

end ShaderMerge
