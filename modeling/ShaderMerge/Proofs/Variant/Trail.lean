import Mathlib.Data.List.Forall2
import Mathlib.Logic.Relation
import ShaderMerge.Proofs.Variant.Accounting
import ShaderMerge.Proofs.Variant.ChunkNames
import ShaderMerge.Proofs.Variant.Release

/-!
# Which chunks include which

A `Trail` follows a writer and notes the chunks that are included at the ends of included files:
each goes where the line that includes it goes.  That is the innermost file, unless a signature is
held back there; then the line joins the signature, and comes to stand in the file in which the
signature is released, which may be another one.  A line of the sources that happens to read as the
include of a chunk is not noted.

The chunks that a finished file includes have been finished in front of it (`isOrdered_step`), and
the lines of the files are those that the trail notes (`notes_event`).  So no way along these
includes comes back to where it started (`Ordered.acyclic`).  Nothing else is noted: the names are,
up to their order, those of the includes that the ends of included files write (`notes_run`).
-/

namespace ShaderMerge.Variant

open Include (Walk Event Moment Run)

/-- A file with the names of the chunks that it includes. -/
abbrev Including := String × List String

/-! ## An order of files -/

/-- Files of different names, each of which includes only those in front of it. -/
structure Ordered (files : List Including) : Prop where
  nodup : (files.map (·.1)).Nodup
  earlier : ∀ front file back, files = front ++ file :: back →
    ∀ name ∈ file.2, name ∈ front.map (·.1)

/-- Whether one of some files leads to another: it includes it. -/
def Leads (files : List Including) (name other : String) : Prop :=
  ∃ names, (name, names) ∈ files ∧ other ∈ names

namespace Ordered

variable {files : List Including} {file : Including} {name other : String}

theorem nil : Ordered [] where
  nodup := List.nodup_nil
  earlier front file back h := by simp at h

/-- A file of a new name that includes only finished files comes last. -/
theorem concat (h : Ordered files) (hname : file.1 ∉ files.map (·.1))
    (hknown : ∀ name ∈ file.2, name ∈ files.map (·.1)) : Ordered (files ++ [file]) where
  nodup := by
    rw [List.map_append, List.map_singleton]
    exact List.nodup_append.2 ⟨h.nodup, by simp, by
      rintro name hmem other hother rfl
      rw [List.mem_singleton] at hother
      exact hname (hother ▸ hmem)⟩
  earlier front earlier back hsplit name hmem := by
    -- The file that includes the name is the new one, or one of the others.
    rcases List.eq_nil_or_concat back with rfl | ⟨rest, last, rfl⟩
    · obtain ⟨rfl, hlast⟩ := List.append_inj' hsplit rfl
      cases hlast
      exact hknown name hmem
    · rw [List.concat_eq_append, ← List.cons_append, ← List.append_assoc] at hsplit
      obtain ⟨rfl, -⟩ := List.append_inj' hsplit rfl
      exact h.earlier front earlier rest rfl name hmem

/-- A file stands behind all to which it leads. -/
theorem idxOf_lt (h : Ordered files) (hleads : Leads files name other) :
    (files.map (·.1)).idxOf other < (files.map (·.1)).idxOf name := by
  obtain ⟨names, hfile, hother⟩ := hleads
  obtain ⟨front, back, rfl⟩ := List.append_of_mem hfile
  have hmem := h.earlier front (name, names) back rfl other hother
  have hnodup := h.nodup
  rw [List.map_append, List.map_cons] at hnodup ⊢
  have hfresh : name ∉ front.map (·.1) := fun hname =>
    (List.nodup_append.1 hnodup).2.2 name hname name List.mem_cons_self rfl
  rw [List.idxOf_append_of_mem hmem, List.idxOf_append_of_notMem hfresh, List.idxOf_cons_self,
    Nat.add_zero]
  exact List.idxOf_lt_length_iff.2 hmem

/-- No way along the includes comes back. -/
theorem acyclic (h : Ordered files) (name : String) :
    ¬ Relation.TransGen (Leads files) name name := by
  -- Every include goes to a file further in front.
  have hlt : ∀ other, Relation.TransGen (Leads files) name other →
      (files.map (·.1)).idxOf other < (files.map (·.1)).idxOf name := by
    intro other hway
    induction hway with
    | single hleads => exact h.idxOf_lt hleads
    | tail _ hleads ih => exact Nat.lt_trans (h.idxOf_lt hleads) ih
  exact fun hway => Nat.lt_irrefl _ (hlt name hway)

end Ordered

/-! ## Trails -/

/-- The names of the chunks that are included at the ends of included files. -/
structure Trail where
  /-- Those that the main file includes. -/
  main : List String
  /-- Those that the chunks being written include, innermost first. -/
  nested : List (List String)
  /-- Those that the signature being held back includes. -/
  held : List String
  /-- The finished chunks with those that they include. -/
  files : List Including
  /-- Those that other chunks included, which were not kept since there was one of their name. -/
  repeated : List String

namespace Trail

/-- A trail in front of the first line. -/
def new : Trail := ⟨[], [], [], [], []⟩

/-- The innermost chunk, or the main file, includes some chunks. -/
def put (t : Trail) (names : List String) : Trail :=
  match t.nested with
  | [] => { t with main := t.main ++ names }
  | chunk :: outer => { t with nested := (chunk ++ names) :: outer }

/-- The signature that is held back is released. -/
def release (t : Trail) : Trail := { t.put t.held with held := [] }

/-- The next line includes a chunk. -/
def include_ (t : Trail) (name : String) (isHolding : Bool) : Trail :=
  if isHolding then { t with held := t.held ++ [name] } else t.put [name]

/-- A chunk starts. -/
def push (t : Trail) : Trail := { t with nested := [] :: t.nested }

/-- A chunk is finished, unless one has its name, and included where the next line goes. -/
def finish (t : Trail) (name : String) (isHolding : Bool) : Trail :=
  match t.nested with
  | [] => t
  | names :: outer =>
    let files := if name ∈ t.files.map (·.1) then t.files else t.files ++ [(name, names)]
    let repeated := if name ∈ t.files.map (·.1) then t.repeated ++ names else t.repeated
    { t with nested := outer, files, repeated : Trail }.include_ name isHolding

/-- Follow a writer that may release what it holds back, and then start a chunk. -/
def move (t : Trail) (w w' : Writer) : Trail :=
  let t := if w'.isHolding then t else t.release
  if w.nested.length < w'.nested.length then t.push else t

/-- Follow a writer in an event. -/
def step (t : Trail) (m : Moment Writer) : Trail :=
  match m.event with
  | .endInclude _ target =>
    match m.before.nested with
    | [] => t
    | lines :: _ => t.finish (chunkOf target lines.toList).name m.before.isHolding
  | _ => t.move m.before m.after

/-- Follow a writer to its end, where it releases what it holds back. -/
def ofMoments (moments : List (Moment Writer)) : Trail := (moments.foldl step new).release

/-- The names that are noted, wherever that is. -/
def noted (t : Trail) : List String :=
  t.main ++ t.nested.flatten ++ t.held ++ t.files.flatMap (·.2) ++ t.repeated

/-- All files of a variant with the chunks that they include, the main file last. -/
def all (t : Trail) (g : GeneratedShader) : List Including := t.files ++ [(g.main.name, t.main)]

/-- Whether finished chunks include only those in front of them, and others only finished ones. -/
structure IsOrdered (t : Trail) : Prop where
  files : Ordered t.files
  known : ∀ name ∈ t.main ++ t.nested.flatten ++ t.held, name ∈ t.files.map (·.1)

variable {t : Trail} {names : List String} {name : String}

theorem isOrdered_new : new.IsOrdered := ⟨.nil, by simp [new]⟩

@[simp]
theorem put_files : (t.put names).files = t.files := by
  rw [put]
  split <;> rfl

@[simp]
theorem put_held : (t.put names).held = t.held := by
  rw [put]
  split <;> rfl

@[simp]
theorem put_nil (t : Trail) : t.put [] = t := by
  rw [put]
  split
  · simp
  · rename_i chunk outer hnested
    simp [← hnested]

theorem mem_put : name ∈ (t.put names).main ++ (t.put names).nested.flatten ↔
    name ∈ t.main ++ t.nested.flatten ∨ name ∈ names := by
  rw [put]
  split
  · rename_i hnested
    simp [hnested]
  · rename_i chunk outer hnested
    simp only [hnested, List.mem_append, List.flatten_cons]
    tauto

theorem IsOrdered.put (h : t.IsOrdered) (hnames : ∀ name ∈ names, name ∈ t.files.map (·.1)) :
    (t.put names).IsOrdered where
  files := by
    rw [put_files]
    exact h.files
  known name hname := by
    rw [put_files]
    rw [put_held, List.mem_append, mem_put] at hname
    rcases hname with (hname | hname) | hname
    · exact h.known name (List.mem_append_left _ hname)
    · exact hnames name hname
    · exact h.known name (List.mem_append_right _ hname)

theorem IsOrdered.release (h : t.IsOrdered) : t.release.IsOrdered := by
  have hput := h.put fun name hname => h.known name (List.mem_append_right _ hname)
  refine ⟨hput.files, fun name hname => hput.known name ?_⟩
  rw [Trail.release, List.append_nil] at hname
  exact List.mem_append_left _ hname

theorem IsOrdered.include_ (h : t.IsOrdered) (hname : name ∈ t.files.map (·.1))
    (isHolding : Bool) : (t.include_ name isHolding).IsOrdered := by
  rw [Trail.include_]
  split
  · refine ⟨h.files, fun other hother => ?_⟩
    rw [← List.append_assoc, List.mem_append, List.mem_singleton] at hother
    rcases hother with hother | rfl
    · exact h.known other hother
    · exact hname
  · exact h.put (by simpa using hname)

theorem IsOrdered.push (h : t.IsOrdered) : t.push.IsOrdered := ⟨h.files, h.known⟩

/-- A chunk that is finished comes behind those that it includes. -/
theorem IsOrdered.finish (h : t.IsOrdered) (name : String) (isHolding : Bool) :
    (t.finish name isHolding).IsOrdered := by
  rw [Trail.finish]
  split
  · exact h
  · rename_i names outer hnested
    -- Under a name that is known nothing comes up that would have to be in order.
    let files := if name ∈ t.files.map (·.1) then t.files else t.files ++ [(name, names)]
    let repeated := if name ∈ t.files.map (·.1) then t.repeated ++ names else t.repeated
    have hsubset : t.files.map (·.1) ⊆ files.map (·.1) := by
      simp only [files]
      split
      · exact List.Subset.refl _
      · rw [List.map_append]
        exact List.subset_append_left _ _
    have hname : name ∈ files.map (·.1) := by
      simp only [files]
      split
      · assumption
      · simp
    have hfinished : ({ t with nested := outer, files, repeated } : Trail).IsOrdered := by
      refine ⟨?_, fun other hother => hsubset (h.known other ?_)⟩
      · simp only [files]
        split
        · exact h.files
        · rename_i hfresh
          refine h.files.concat hfresh fun other hother => h.known other ?_
          rw [hnested]
          simp [hother]
      · rw [hnested]
        simp only [List.mem_append, List.flatten_cons] at hother ⊢
        tauto
    exact hfinished.include_ hname isHolding

theorem IsOrdered.move (h : t.IsOrdered) (w w' : Writer) : (t.move w w').IsOrdered := by
  have hreleased : (if w'.isHolding then t else t.release).IsOrdered := by
    split
    · exact h
    · exact h.release
  rw [Trail.move]
  split
  · exact hreleased.push
  · exact hreleased

theorem isOrdered_step (h : t.IsOrdered) (m : Moment Writer) : (t.step m).IsOrdered := by
  rw [step]
  split
  · split
    · exact h
    · exact h.finish _ _
  · exact h.move _ _

theorem isOrdered_foldl (h : t.IsOrdered) (moments : List (Moment Writer)) :
    (moments.foldl step t).IsOrdered := by
  induction moments generalizing t with
  | nil => exact h
  | cons m rest ih => exact ih (isOrdered_step h m)

theorem isOrdered_ofMoments (moments : List (Moment Writer)) : (ofMoments moments).IsOrdered :=
  (isOrdered_foldl isOrdered_new moments).release

/-! ### What is noted -/

theorem noted_put (t : Trail) (names : List String) :
    (t.put names).noted.Perm (t.noted ++ names) := by
  rw [put]
  apply List.perm_iff_count.2
  intro name
  split
  · simp only [noted, List.count_append]
    omega
  · rename_i chunk outer hnested
    simp only [noted, hnested, List.flatten_cons, List.count_append]
    omega

/-- What is released has been noted before. -/
theorem noted_release (t : Trail) : t.release.noted.Perm t.noted := by
  have hput := List.perm_iff_count.1 (t.noted_put t.held)
  have hheld : (t.put t.held).held = t.held := put_held
  apply List.perm_iff_count.2
  intro name
  have hcount := hput name
  rw [List.count_append] at hcount
  rw [release]
  simp only [noted, hheld, List.count_append, List.append_nil] at hcount ⊢
  omega

theorem noted_include (t : Trail) (name : String) (isHolding : Bool) :
    (t.include_ name isHolding).noted.Perm (t.noted ++ [name]) := by
  rw [include_]
  split
  · apply List.perm_iff_count.2
    intro other
    simp only [noted, List.count_append]
    omega
  · exact t.noted_put [name]

/-- The end of a chunk notes one name more; those of the chunk are kept with it or apart. -/
theorem noted_finish (hnested : t.nested ≠ []) (name : String) (isHolding : Bool) :
    (t.finish name isHolding).noted.Perm (t.noted ++ [name]) := by
  rw [finish]
  split
  · rename_i hnone
    exact absurd hnone hnested
  · rename_i names outer hsome
    refine (noted_include _ name isHolding).trans (List.Perm.append_right [name] ?_)
    apply List.perm_iff_count.2
    intro other
    by_cases hknown : name ∈ t.files.map (·.1)
    · simp only [noted, hsome, if_pos hknown, List.flatten_cons, List.count_append]
      omega
    · simp only [noted, hsome, if_neg hknown, List.flatten_cons, List.flatMap_append,
        List.flatMap_cons, List.flatMap_nil, List.append_nil, List.count_append]
      omega

theorem noted_move (t : Trail) (w w' : Writer) : (t.move w w').noted.Perm t.noted := by
  have hreleased : (if w'.isHolding then t else t.release).noted.Perm t.noted := by
    split
    · exact List.Perm.refl _
    · exact t.noted_release
  rw [move]
  split
  · -- A chunk that starts includes nothing yet.
    exact hreleased
  · exact hreleased

end Trail

/-- The name in the include that an event writes: that of the chunk that the end of an included file
finishes. -/
def includedAt? (m : Moment Writer) : Option String :=
  match m.event with
  | .endInclude _ target =>
    m.before.nested.head?.map fun lines => (chunkOf target lines.toList).name
  | _ => none

/-! ## The lines that a trail follows -/

/-- Whether the includes of some chunks stand among some lines, in their order. -/
def IncludedIn (names lines : List String) : Prop :=
  (names.map Directive.includeLine).Sublist lines

/-- The lines of each file are those that the trail notes for it. -/
structure Notes (w : Writer) (t : Trail) : Prop where
  main : IncludedIn t.main w.main.toList
  nested : List.Forall₂ (fun lines names => IncludedIn names lines.toList) w.nested t.nested
  held : IncludedIn t.held w.held
  files : List.Forall₂ (fun chunk file => file.1 = chunk.name ∧ IncludedIn file.2 chunk.lines)
    w.chunks t.files

section

variable {r : Request} {w w₁ w' : Writer} {t : Trail} {names more lines : List String}
  {walk walk' : Walk}

theorem isMarked_includeLine (name : String) :
    Directive.isMarked (Directive.includeLine name) = true := by
  rw [Directive.isMarked, Directive.includeLine, String.toList_append, String.toList_append]
  rfl

theorem IncludedIn.append {front : List String} (h : IncludedIn names front)
    (hmore : IncludedIn more lines) : IncludedIn (names ++ more) (front ++ lines) := by
  rw [IncludedIn, List.map_append]
  exact List.Sublist.append h hmore

/-- Includes are directives, so they stand among the directives of the lines. -/
theorem IncludedIn.of_filter {after : List String} (h : IncludedIn names lines)
    (hmarked : (lines.filter Directive.isMarked).Sublist (after.filter Directive.isMarked)) :
    IncludedIn names after := by
  have hall : (names.map Directive.includeLine).filter Directive.isMarked
      = names.map Directive.includeLine := by
    rw [List.filter_eq_self]
    intro line hline
    obtain ⟨name, -, rfl⟩ := List.mem_map.1 hline
    exact isMarked_includeLine name
  have hfiltered := List.Sublist.filter Directive.isMarked h
  rw [hall] at hfiltered
  exact (hfiltered.trans hmarked).trans List.filter_sublist

theorem notes_new (r : Request) : Notes (.new r) .new where
  main := List.Sublist.refl _
  nested := .nil
  held := List.Sublist.refl _
  files := .nil

/-- Lines and the chunks that they include go to the same file. -/
theorem Notes.put (h : Notes w t) (hputs : Writer.Puts w w' lines)
    (hnames : IncludedIn names lines) :
    IncludedIn (t.put names).main w'.main.toList ∧
      List.Forall₂ (fun lines names => IncludedIn names lines.toList) w'.nested
        (t.put names).nested := by
  have hnested := h.nested
  rw [Writer.Puts] at hputs
  rw [Trail.put]
  generalize w.nested = chunks at hnested hputs
  generalize t.nested = levels at hnested
  cases hnested with
  | nil =>
    obtain ⟨hlonger, hnone⟩ := hputs
    rw [hnone, hlonger]
    exact ⟨h.main.append hnames, .nil⟩
  | cons hchunk houter =>
    obtain ⟨hsame, longer, hlonger, htext⟩ := hputs
    rw [hlonger, hsame]
    refine ⟨h.main, .cons ?_ houter⟩
    rw [htext]
    exact hchunk.append hnames

theorem nested_puts (hputs : Writer.Puts w w' lines) : w'.nested.length = w.nested.length := by
  rw [Writer.Puts] at hputs
  split at hputs
  · rename_i hnested
    rw [hputs.2, hnested]
  · rename_i hnested
    obtain ⟨-, longer, hlonger, -⟩ := hputs
    rw [hlonger, hnested]
    rfl

/-- The directives that are not held back any more are in the file that the lines go to. -/
theorem Notes.delivers (h : Notes w t) (hdelivers : Writer.Delivers w w' lines)
    (hchunks : w'.chunks = w.chunks) :
    Notes w' (if w'.isHolding then t else t.release) := by
  have hdirectives := hdelivers.directives
  cases hholding : w'.isHolding with
  | true =>
    rw [hholding] at hdirectives
    have hnothing : IncludedIn [] lines := List.nil_sublist _
    obtain ⟨hmain, hnested⟩ := h.put hdelivers.puts hnothing
    rw [Trail.put_nil] at hmain hnested
    exact ⟨hmain, hnested, h.held.of_filter hdirectives, hchunks ▸ h.files⟩
  | false =>
    rw [hholding] at hdirectives
    obtain ⟨hmain, hnested⟩ := h.put hdelivers.puts (h.held.of_filter hdirectives)
    have hfiles : t.release.files = t.files := Trail.put_files
    change Notes w' t.release
    refine ⟨hmain, hnested, List.nil_sublist _, ?_⟩
    rw [hchunks, hfiles]
    exact h.files

theorem notes_move {event : Event} (h : Notes w t) (hstarted : w.StartsInCode)
    (hend : ∀ directive target, event ≠ .endInclude directive target)
    (hstep : Writer.event r w walk event = .ok (w', walk')) :
    Notes w' (t.move w w') ∧ w'.StartsInCode := by
  have hchunks := chunks_of_not_end hend hstep
  obtain ⟨w₁, out, hdelivers, rfl | rfl⟩ := Writer.delivers_event hstarted hend hstep
  · rw [Trail.move, if_neg (by rw [nested_puts hdelivers.puts]; exact Nat.lt_irrefl _)]
    exact ⟨h.delivers hdelivers hchunks, hdelivers.started⟩
  · -- An included file is entered, and a chunk starts behind what has been released.
    have hlonger : w.nested.length < (#[] :: w₁.nested).length := by
      rw [List.length_cons, nested_puts hdelivers.puts]
      exact Nat.lt_succ_self _
    have hnotes := h.delivers hdelivers hchunks
    rw [Trail.move, if_pos hlonger]
    exact ⟨⟨hnotes.main, .cons (List.Sublist.refl _) hnotes.nested, hnotes.held,
      hnotes.files⟩, hdelivers.started⟩

theorem names_of_files {chunks : List GeneratedFile} {files : List Including}
    (h : List.Forall₂ (fun chunk file => file.1 = chunk.name ∧ IncludedIn file.2 chunk.lines)
      chunks files) : files.map (·.1) = chunks.map (·.name) := by
  induction h with
  | nil => rfl
  | cons hfirst _ ih => rw [List.map_cons, List.map_cons, hfirst.1, ih]

/-- A chunk that is finished joins the files, unless there is one of its name. -/
theorem notes_addChunk {chunks : List GeneratedFile} {files : List Including}
    (h : List.Forall₂ (fun chunk file => file.1 = chunk.name ∧ IncludedIn file.2 chunk.lines)
      chunks files) {chunk : GeneratedFile} (hnames : IncludedIn names chunk.lines) :
    List.Forall₂ (fun chunk file => file.1 = chunk.name ∧ IncludedIn file.2 chunk.lines)
      (Sound.addChunk chunks chunk)
      (if chunk.name ∈ files.map (·.1) then files else files ++ [(chunk.name, names)]) := by
  have hsame := names_of_files h
  have hany : chunks.any (·.name = chunk.name) = true ↔ chunk.name ∈ files.map (·.1) := by
    rw [hsame, List.any_eq_true, List.mem_map]
    simp only [decide_eq_true_eq]
  rw [Sound.addChunk]
  by_cases hmem : chunk.name ∈ files.map (·.1)
  · rw [if_pos (hany.2 hmem), if_pos hmem]
    exact h
  · rw [if_neg (fun hname => hmem (hany.1 hname)), if_neg hmem]
    exact List.rel_append h (.cons ⟨rfl, hnames⟩ .nil)

/-- The line that includes a chunk goes where the trail notes it. -/
theorem Notes.include_ (h : Notes w t) (name : String) :
    Notes (w.write [Directive.includeLine name]) (t.include_ name w.isHolding) := by
  have hline : IncludedIn [name] [Directive.includeLine name] := List.Sublist.refl _
  rw [Trail.include_]
  cases hholding : w.isHolding with
  | true =>
    obtain ⟨p, heq, hheld⟩ := Writer.write_of_isHolding hholding [Directive.includeLine name]
    have hjoined : ({ w with program := some p } : Writer).held
        = w.held ++ [Directive.includeLine name] := hheld
    rw [heq, if_pos rfl]
    refine ⟨h.main, h.nested, ?_, h.files⟩
    rw [hjoined]
    exact h.held.append hline
  | false =>
    obtain ⟨hmain, hnested⟩ := h.put (w.puts_put _) hline
    rw [Writer.write_of_not_isHolding hholding, if_neg Bool.false_ne_true]
    refine ⟨hmain, hnested, ?_, ?_⟩
    · rw [Trail.put_held, Writer.held_put]
      exact h.held
    · rw [Trail.put_files, Writer.put_chunks]
      exact h.files

/-- The end of an included file. -/
theorem notes_endInclude (h : Notes w t) {lines : Array String} {outer : List (Array String)}
    (hnested : w.nested = lines :: outer) (target : String) :
    Notes (w.endInclude target) (t.finish (chunkOf target lines.toList).name w.isHolding) := by
  have hlevels := h.nested
  rw [hnested] at hlevels
  rw [Sound.endInclude_eq hnested, Trail.finish]
  cases hlevel : t.nested with
  | nil =>
    rw [hlevel] at hlevels
    cases hlevels
  | cons names levels =>
    rw [hlevel] at hlevels
    obtain ⟨hchunk, houter⟩ := List.forall₂_cons.1 hlevels
    let chunk := chunkOf target lines.toList
    let files :=
      if chunk.name ∈ t.files.map (·.1) then t.files else t.files ++ [(chunk.name, names)]
    let repeated := if chunk.name ∈ t.files.map (·.1) then t.repeated ++ names else t.repeated
    have hopened : Notes { w with nested := outer, chunks := Sound.addChunk w.chunks chunk }
        { t with nested := levels, files, repeated } :=
      ⟨h.main, houter, h.held, notes_addChunk h.files hchunk⟩
    exact hopened.include_ _

/-- **One event.**  The trail goes where the writer goes. -/
theorem notes_event {event : Event} (h : Notes w t) (hstarted : w.StartsInCode)
    (hstep : Writer.event r w walk event = .ok (w', walk')) :
    Notes w' (t.step ⟨w, event, walk, w'⟩) ∧ w'.StartsInCode := by
  cases event with
  | line => exact notes_move h hstarted (by simp) hstep
  | include_ => exact notes_move h hstarted (by simp) hstep
  | endInclude directive target =>
    cases hstep
    cases hnested : w.nested with
    | nil =>
      rw [Writer.endInclude, Trail.step, hnested]
      exact ⟨h, hstarted⟩
    | cons lines outer =>
      refine ⟨?_, Writer.startsInCode_endInclude hstarted target⟩
      rw [Trail.step, hnested]
      exact notes_endInclude h hnested target

/-- The trail notes what an event includes, and nothing else. -/
theorem noted_step (h : Notes w t) (event : Event) (walk : Walk) (w' : Writer) :
    (t.step ⟨w, event, walk, w'⟩).noted.Perm
      (t.noted ++ (includedAt? ⟨w, event, walk, w'⟩).toList) := by
  have hmove : (t.move w w').noted.Perm (t.noted ++ []) := by
    rw [List.append_nil]
    exact t.noted_move w w'
  cases event with
  | line => exact hmove
  | include_ => exact hmove
  | endInclude directive target =>
    rw [Trail.step, includedAt?]
    cases hnested : w.nested with
    | nil =>
      show t.noted.Perm (t.noted ++ [])
      rw [List.append_nil]
    | cons lines outer =>
      refine t.noted_finish ?_ _ _
      -- The trail has a level for each chunk that is being written.
      intro hnone
      have hlevels := h.nested
      rw [hnested, hnone] at hlevels
      cases hlevels

/-- **A run.**  The trail goes where the writer goes, and notes the includes that it writes. -/
theorem notes_run {moments : List (Moment Writer)}
    (hrun : Run r.shader.sources (Writer.event r) w walk moments w' walk') (h : Notes w t)
    (hstarted : w.StartsInCode) : Notes w' (moments.foldl Trail.step t) ∧
      (moments.foldl Trail.step t).noted.Perm (t.noted ++ moments.filterMap includedAt?) := by
  induction hrun generalizing t with
  | nil =>
    refine ⟨h, ?_⟩
    rw [List.filterMap_nil, List.append_nil]
    exact List.Perm.refl _
  | @cons w w₁ w' walk walk₁ walk₂ walk' event moments _ hstep _ ih =>
    obtain ⟨hnotes, hstarted'⟩ := notes_event h hstarted hstep
    obtain ⟨hnotes', hnoted⟩ := ih hnotes hstarted'
    refine ⟨hnotes', hnoted.trans ?_⟩
    have hfirst := noted_step h event walk₁ w₁
    have hsplit : (⟨w, event, walk₁, w₁⟩ :: moments).filterMap includedAt?
        = (includedAt? ⟨w, event, walk₁, w₁⟩).toList ++ moments.filterMap includedAt? := by
      rw [List.filterMap_cons]
      cases includedAt? ⟨w, event, walk₁, w₁⟩ <;> rfl
    rw [hsplit, ← List.append_assoc]
    exact hfirst.append_right _

/-- The line at the end of an included file includes a chunk that is still there at the end. -/
theorem exists_included {moments : List (Moment Writer)}
    (hrun : Run r.shader.sources (Writer.event r) w walk moments w' walk')
    (hcount : w.nested.length = walk.included) {m : Moment Writer} (hm : m ∈ moments)
    {directive target : String} (hevent : m.event = .endInclude directive target) :
    ∃ chunk ∈ w'.chunks, includedAt? m = some chunk.name ∧ ∃ front,
      m.after.lines = front ++ [Directive.includeLine chunk.name] := by
  obtain ⟨front, back, rfl⟩ := List.append_of_mem hm
  obtain ⟨walk₀, walk₂, hfront, hnext, hstep, hback⟩ := hrun.split
  have hincluded := Walk.counts_next r.shader.sources walk₀
  have hlength := nested_run hfront hcount
  rw [hevent] at hstep
  rw [hnext, hevent] at hincluded
  have hincluded : walk₀.included = m.walk.included + 1 := hincluded
  rw [hincluded] at hlength
  -- The walk is in an included file here, so a chunk is being written.
  obtain ⟨lines, outer, hnested⟩ := List.exists_cons_of_length_eq_add_one hlength
  have hafter : m.before.endInclude target = m.after := congrArg Prod.fst (Except.ok.inj hstep)
  rw [Sound.endInclude_eq hnested] at hafter
  obtain ⟨chunk, hchunk, hname⟩ :=
    Sound.exists_mem_addChunk m.before.chunks (chunkOf target lines.toList)
  have hwritten := Writer.lines_write { m.before with
    nested := outer, chunks := Sound.addChunk m.before.chunks (chunkOf target lines.toList) }
    [Directive.includeLine (chunkOf target lines.toList).name]
  rw [hafter, ← hname] at hwritten
  have hincluded : includedAt? m = some chunk.name := by
    rw [includedAt?, hevent, hname]
    dsimp only
    rw [hnested]
    rfl
  refine ⟨chunk, chunks_subset_run hback ?_, hincluded, _, hwritten⟩
  rw [← hafter, Writer.write_chunks]
  exact hchunk

/-! ## The end of a variant -/

/-- At the end no chunk is being written, and nothing is held back. -/
theorem Notes.noted_ofMoments {moments : List (Moment Writer)}
    (h : Notes w (moments.foldl Trail.step .new)) (hnested : w.nested = [])
    (hnoted : (moments.foldl Trail.step .new).noted.Perm
      (Trail.new.noted ++ moments.filterMap includedAt?)) :
    ((Trail.ofMoments moments).main ++ (Trail.ofMoments moments).files.flatMap (·.2)
      ++ (Trail.ofMoments moments).repeated).Perm (moments.filterMap includedAt?) := by
  have hlevels := h.nested
  rw [hnested] at hlevels
  have hnone : (Trail.ofMoments moments).nested = [] := by
    rw [Trail.ofMoments, Trail.release, Trail.put, List.forall₂_nil_left_iff.1 hlevels]
  have hreleased := (moments.foldl Trail.step .new).noted_release.trans hnoted
  rw [Trail.noted, ← Trail.ofMoments, hnone] at hreleased
  have hheld : (Trail.ofMoments moments).held = [] := rfl
  rwa [hheld, List.flatten_nil, List.append_nil, List.append_nil] at hreleased

/-- What is held back behind the walk comes last in the main file. -/
theorem Notes.release (h : Notes w t) (hnested : w.nested = [])
    (hreleased : Released w w') : IncludedIn t.release.main w'.main.toList := by
  have hlevels := h.nested
  rw [hnested] at hlevels
  have hmain : w'.main.toList = w.main.toList ++ w.held := by
    rw [hreleased.main_eq hnested, Writer.lines, Writer.written, hnested]
    simp
  rw [Trail.release, Trail.put, List.forall₂_nil_left_iff.1 hlevels, hmain]
  exact h.main.append h.held

theorem sublist_addProperties (r : Request) (w : Writer) :
    w.main.toList.Sublist (w.addProperties r).main.toList := by
  simp only [Writer.addProperties]
  split
  · exact List.Sublist.refl _
  · rename_i place _
    split
    · exact List.Sublist.refl _
    · have hsame := (List.take_append_drop place w.main.toList).symm
      nth_rewrite 1 [hsame]
      exact (List.sublist_append_left _ _).append (List.Sublist.refl _)

end

/-- The chunks of a variant, and the moments in which it is written.

The name of the variant overwrites the shader line at the end, wherever that stands, so the includes
of the main file are those of its lines in front of that. -/
structure IsLinked (g : GeneratedShader) (moments : List (Moment Writer)) : Prop where
  /-- No two chunks have one name. -/
  nodup : (g.chunks.map (·.name)).Nodup
  /-- The line at the end of an included file includes a chunk. -/
  included : ∀ m ∈ moments, ∀ directive target, m.event = .endInclude directive target →
    ∃ chunk ∈ g.chunks, includedAt? m = some chunk.name ∧
      ∃ front, m.after.lines = front ++ [Directive.includeLine chunk.name]
  /-- These includes are the ones that are noted, each of them once: for the main file, for a chunk, or
  for one that was not kept since there was one of its name. -/
  noted : ((Trail.ofMoments moments).main ++ (Trail.ofMoments moments).files.flatMap (·.2)
    ++ (Trail.ofMoments moments).repeated).Perm (moments.filterMap includedAt?)
  /-- The chunks have the includes that are noted for them. -/
  chunks : List.Forall₂
    (fun chunk file => file.1 = chunk.name ∧ IncludedIn file.2 chunk.lines) g.chunks
    (Trail.ofMoments moments).files
  /-- The main file has the includes that are noted for it. -/
  main : ∃ lines place, g.hash = ContentHash.ofLines lines ∧
    g.main.lines = named g.name lines place ∧ IncludedIn (Trail.ofMoments moments).main lines
  /-- Only chunks are included. -/
  known : ∀ name other, Leads ((Trail.ofMoments moments).all g) name other →
    other ∈ g.chunks.map (·.name)
  /-- No way along the includes comes back. -/
  acyclic : ∀ name, ¬ Relation.TransGen (Leads ((Trail.ofMoments moments).all g)) name name

/-- The name of the main file does not end as those of chunks do. -/
theorem GeneratedFile.IsChunk.name_ne {chunk : GeneratedFile} (h : chunk.IsChunk) (name : String) :
    chunk.name ≠ name ++ ".shader" := by
  intro heq
  obtain ⟨target, hmade⟩ := h
  rw [hmade] at heq
  have hlast := congrArg (fun text => text.toList.getLast?) heq
  simp only [chunkOf, chunkName, String.toList_append, List.getLast?_append] at hlast
  cases hlast

/-- **The files of a variant.**  The chunks that are included are there, and no way along their
includes comes back. -/
theorem isLinked_of_variant {shader : Shader} {o : Options} {g : GeneratedShader}
    (hvariant : shader.variant o = .ok g) : IsLinked g (Writer.moments shader o) := by
  obtain ⟨substitution, w, walk, -, hrun, hend, hfinish⟩ := Writer.writes_moments hvariant
  let r : Request := ⟨shader, o, substitution⟩
  obtain ⟨w', hreleased, hchunks, hhash, -, hmain⟩ := finish_spec hfinish
  rw [hreleased.chunks] at hchunks
  have hnested := @nested_of_end r _ _ _ _ _ hrun rfl hend
  have hnamed := named_of_variant hvariant
  obtain ⟨hnotes, hnoted⟩ :=
    @notes_run r _ _ _ _ _ _ hrun (notes_new r) (by intro p hp; cases hp)
  have hfiles : List.Forall₂
      (fun chunk file => file.1 = chunk.name ∧ IncludedIn file.2 chunk.lines) g.chunks
      (Trail.ofMoments (Writer.moments shader o)).files := by
    rw [hchunks, Trail.ofMoments, Trail.release, Trail.put_files]
    exact hnotes.files
  have hnames := names_of_files hfiles
  -- The main file comes behind all chunks and has another name.
  have hordered := Trail.isOrdered_ofMoments (Writer.moments shader o)
  have hknown : ∀ name ∈ (Trail.ofMoments (Writer.moments shader o)).main,
      name ∈ (Trail.ofMoments (Writer.moments shader o)).files.map (·.1) := by
    intro name hname
    exact hordered.known name (List.mem_append_left _ (List.mem_append_left _ hname))
  have hfresh : g.main.name ∉ (Trail.ofMoments (Writer.moments shader o)).files.map (·.1) := by
    rw [hnames, hmain]
    intro hmem
    obtain ⟨chunk, hchunk, heq⟩ := List.mem_map.1 hmem
    exact (hnamed.made chunk hchunk).name_ne _ heq
  have hall : Ordered ((Trail.ofMoments (Writer.moments shader o)).all g) :=
    hordered.files.concat hfresh hknown
  refine ⟨hnamed.nodup, ?_, ?_, hfiles, ?_, ?_, hall.acyclic⟩
  · intro m hm directive target hevent
    rw [hchunks]
    exact @exists_included r _ _ _ _ _ hrun rfl m hm directive target hevent
  · exact hnotes.noted_ofMoments hnested hnoted
  · refine ⟨_, _, hhash, congrArg GeneratedFile.lines hmain, ?_⟩
    exact (hnotes.release hnested hreleased).trans (sublist_addProperties r w')
  · -- What a file includes has been finished by then, and stays to the end.
    rintro name other ⟨names, hfile, hother⟩
    rw [← hnames]
    rcases List.mem_append.1 hfile with hfile | hfile
    · obtain ⟨front, back, hsplit⟩ := List.append_of_mem hfile
      have hmem := hordered.files.earlier front (name, names) back hsplit other hother
      rw [hsplit, List.map_append]
      exact List.mem_append_left _ hmem
    · cases List.mem_singleton.1 hfile
      exact hknown other hother

/-- **Chunks can be written once.**  Chunks of two variants that have one name have the same lines,
unless their hashes collide, and the chunks of each variant are linked. -/
theorem linked_chunks_of_variants {shader shader' : Shader} {o o' : Options}
    {g g' : GeneratedShader} (hvariant : shader.variant o = .ok g)
    (hvariant' : shader'.variant o' = .ok g') (happart : HashesApart (g.chunks ++ g'.chunks)) :
    (∀ chunk ∈ g.chunks, ∀ other ∈ g'.chunks, chunk.name = other.name →
      chunk.lines = other.lines) ∧
    IsLinked g (Writer.moments shader o) ∧ IsLinked g' (Writer.moments shader' o') := by
  refine ⟨?_, isLinked_of_variant hvariant, isLinked_of_variant hvariant'⟩
  intro chunk hchunk other hother hname
  exact happart.lines_of_name (List.mem_append_left _ hchunk) (List.mem_append_right _ hother)
    ((named_of_variant hvariant).made chunk hchunk)
    ((named_of_variant hvariant').made other hother) hname

/-- A shader that includes the start of the signature of an entry point. -/
def signatureIncluded : List String :=
  ["Shader \"S\"", "\x7b", "Pass", "\x7b", "CGPROGRAM", "#pragma vertex vert",
    "#pragma fragment frag", "#include \"a.cginc\"", "float4 p : POSITION) : SV_Position", "\x7b",
    "return p;", "\x7d", "float4 frag() : SV_Target", "\x7b", "return helper;", "\x7d", "ENDCG",
    "\x7d", "\x7d"]

/-- The files of this shader; the signature starts behind another include. -/
def signatureFiles : List (String × List String) :=
  [("a.shader", signatureIncluded), ("a.cginc", ["#include \"b.cginc\"", "float4 vert("]),
    ("b.cginc", ["float helper;"])]

/-- Both variants share a chunk.  In one of them the include of the file comes to stand inside of
the signature that the file starts. -/
theorem linked_chunks_of_signatureIncluded :
    ∃ shader g g', Shader.read? (.ofFiles signatureFiles) "a.shader" = .ok shader ∧
      shader.variant twoMeshes = .ok g ∧ shader.variant .new = .ok g' ∧
      g.chunks = [⟨"b_92bf1439219379de.cginc", ["float helper;"]⟩,
        ⟨"a_a13d7c5dc59e4a06.cginc", [Directive.includeLine "b_92bf1439219379de.cginc"]⟩] ∧
      (Trail.ofMoments (Writer.moments shader twoMeshes)).files
        = [("b_92bf1439219379de.cginc", []),
          ("a_a13d7c5dc59e4a06.cginc", ["b_92bf1439219379de.cginc"])] ∧
      (Trail.ofMoments (Writer.moments shader twoMeshes)).main = ["a_a13d7c5dc59e4a06.cginc"] ∧
      (∀ chunk ∈ g.chunks, ∀ other ∈ g'.chunks, chunk.name = other.name →
        chunk.lines = other.lines) ∧
      IsLinked g (Writer.moments shader twoMeshes) ∧ IsLinked g' (Writer.moments shader .new) := by
  have hlines : (Project.ofFiles signatureFiles).readLines? "a.shader" = some signatureIncluded :=
    Project.readLines?_ofFiles (by decide +kernel) (by decide +kernel)
  have hcheck : (Shader.read? (.ofFiles signatureFiles) "a.shader").toOption.any (fun shader =>
      (shader.variant twoMeshes).toOption.any fun g : GeneratedShader =>
        (shader.variant .new).toOption.any fun g' : GeneratedShader =>
          decide (g.chunks = [⟨"b_92bf1439219379de.cginc", ["float helper;"]⟩,
              ⟨"a_a13d7c5dc59e4a06.cginc", [Directive.includeLine "b_92bf1439219379de.cginc"]⟩]) &&
            (decide ((Trail.ofMoments (Writer.moments shader twoMeshes)).files
                = [("b_92bf1439219379de.cginc", []),
                  ("a_a13d7c5dc59e4a06.cginc", ["b_92bf1439219379de.cginc"])] ∧
                (Trail.ofMoments (Writer.moments shader twoMeshes)).main
                  = ["a_a13d7c5dc59e4a06.cginc"]) &&
              decide (HashesApart (g.chunks ++ g'.chunks)))) = true := by
    rw [Shader.read?, Include.Sources.load, hlines]
    decide +kernel
  obtain ⟨shader, hread, hany⟩ := exists_ok_of_any hcheck
  obtain ⟨g, hvariant, hany⟩ := exists_ok_of_any hany
  obtain ⟨g', hvariant', hg⟩ := exists_ok_of_any hany
  rw [Bool.and_eq_true, Bool.and_eq_true, decide_eq_true_eq, decide_eq_true_eq, decide_eq_true_eq]
    at hg
  obtain ⟨hchunks, ⟨hfiles, hmain⟩, happart⟩ := hg
  exact ⟨shader, g, g', hread, hvariant, hvariant', hchunks, hfiles, hmain,
    linked_chunks_of_variants hvariant hvariant' happart⟩

end ShaderMerge.Variant
