import ShaderMerge.Proofs.Shader.PropertyKinds
import ShaderMerge.Proofs.Shader.Blocks
import ShaderMerge.Proofs.Text.Pieces

/-!
# The layout of a shader

Which lines declare properties and which are commands is a matter of the braces, the markers of program
blocks and three words in front of braces.  A `Layout` follows these and nothing else, so the lines of a
place are known without a builder (`Layout.linesIn`).

Main result: a run declares what the lines of the block of properties name, each texture with its
companion, and collects the names in square brackets on the lines of commands (`collects_of_run`).
-/

namespace ShaderMerge

open Include (Event Run Sources Walk Moment isProgramStart isBlockEnd)

/-! ## Layouts -/

/-- Where a line of a shader stands. -/
structure Layout where
  /-- Whether it is in a program block. -/
  inProgram : Bool
  /-- Where it is otherwise. -/
  place : Builder.Place
  /-- The place that an opening brace leads to. -/
  announced : Option Builder.Place
  /-- The number of braces that are open in the place, where braces lead to it and back. -/
  nested : Int
deriving DecidableEq

namespace Layout

/-- In front of the first line. -/
def start : Layout := ⟨false, .start, none, 0⟩

/-- Whether a line outside of program blocks is neither a marker nor a directive nor a brace. -/
def isText (line : String) : Bool :=
  !isProgramStart line && !Directive.isMarked line && line != "\x7b" && line != "\x7d"
    && line != "\x7d;"

/-- The place that a line announces. -/
def announces? (line : String) : Option Builder.Place :=
  match line with
  | "Properties" => some .properties
  | "Tags" => some .tags
  | _ => none

/-- Behind a line of text outside of program blocks. -/
def text (o : Layout) (line : String) : Layout :=
  match o.place with
  | .start =>
    if (Text.after? "Shader" line.toList).isSome then { o with place := .commands, announced := none }
    else { o with announced := none }
  | .commands => { o with announced := announces? line }
  | _ => { o with announced := none }

/-- Behind an opening brace. -/
def openBrace (o : Layout) : Layout :=
  match o.announced with
  | some place => { o with place, announced := none, nested := 0 }
  | none => { o with nested := o.nested + 1 }

/-- Behind a closing brace. -/
def closeBrace (o : Layout) : Layout :=
  { o with
    place := if (o.place = .properties || o.place = .tags) && o.nested == 0 then .commands else o.place
    nested := o.nested - 1 }

/-- Behind a line. -/
def line (o : Layout) (line : String) : Layout :=
  if o.inProgram then { o with inProgram := !isBlockEnd line }
  else if isProgramStart line then { o with inProgram := true }
  else if Directive.isMarked line then o
  else if line = "\x7b" then o.openBrace
  else if line = "\x7d" || line = "\x7d;" then o.closeBrace
  else o.text line

/-- Behind an event. -/
def event (o : Layout) : Event → Layout
  | .line _ text => o.line text
  | _ => o

/-- The line that an event reads, if it is a line of text in a place. -/
def textIn? (place : Builder.Place) (o : Layout) : Event → Option String
  | .line _ text => if !o.inProgram && o.place = place && isText text then some text else none
  | _ => none

/-- The lines of text in a place, among those of some events. -/
def linesIn (place : Builder.Place) (o : Layout) : List Event → List String
  | [] => []
  | event :: rest => (o.textIn? place event).toList ++ linesIn place (o.event event) rest

end Layout

/-! ## Names on lines -/

/-- The names that a line of the block of properties declares: for a texture there are two. -/
def declaredNames (line : String) : List String :=
  match PropertyHead.ofText? (PropertyTag.readAll line.toList).2.2 with
  | none => []
  | some head =>
    let name := String.ofList head.name
    let word := Text.lowerLetters (String.ofList head.typeWord)
    if (PropertyDefault.textureType? word).isSome then [name, name ++ "_ST"] else [name]

/-- The names in square brackets on a line. -/
def bracketedNames (line : String) : List String := Command.properties line.toList

theorem isName_of_mem_declaredNames {name line : String} (h : name ∈ declaredNames line) :
    Text.IsName name.toList := by
  rw [declaredNames] at h
  split at h
  · cases h
  · rename_i head hhead
    simp only [PropertyHead.ofText?, Option.bind_eq_bind, Option.bind_eq_some_iff] at hhead
    obtain ⟨⟨own, _⟩, hown, ⟨_, _⟩, -, _, -, ⟨_, _⟩, -, ⟨_, _⟩, -, hword⟩ := hhead
    split at hword
    · cases hword
    · cases hword
      obtain ⟨-, ⟨c, more, rfl, hstart, hmore⟩, -⟩ := Text.name?_eq_some_iff.1 hown
      have hown : Text.IsName (String.ofList (c :: more)).toList :=
        ⟨c, more, String.toList_ofList, hstart, hmore⟩
      have hcompanion : Text.IsName (String.ofList (c :: more) ++ "_ST").toList := by
        rw [String.toList_append, String.toList_ofList]
        refine ⟨c, more ++ "_ST".toList, rfl, hstart, fun d hd => ?_⟩
        rcases List.mem_append.1 hd with hd | hd
        · exact hmore d hd
        · have hall : "_ST".toList.all Text.isNameChar = true := by decide
          exact List.all_eq_true.1 hall d hd
      dsimp only at h
      split at h
      · rcases List.mem_cons.1 h with rfl | h
        · exact hown
        · rw [List.mem_singleton.1 h]
          exact hcompanion
      · rw [List.mem_singleton.1 h]
        exact hown

/-- A name that stands in square brackets on a line is found. -/
theorem mem_bracketedNames {name line : String} {front back : List Char}
    (hname : Text.IsName name.toList)
    (hline : line.toList = front ++ '[' :: (name.toList ++ ']' :: back)) :
    name ∈ bracketedNames line := by
  rw [bracketedNames, hline]
  clear hline
  induction front with
  | nil =>
    have hstops : Text.Stops Text.isNameChar (']' :: back) := by
      intro c hc
      cases hc
      rfl
    have hread : Text.name? (name.toList ++ ']' :: back) = some (name.toList, ']' :: back) :=
      Text.name?_eq_some_iff.2 ⟨rfl, hname, hstops⟩
    rw [List.nil_append, Command.properties, Command.bracketedName?, hread]
    exact List.mem_cons.2 (.inl String.ofList_toList.symm)
  | cons c front ih =>
    rw [List.cons_append, Command.properties]
    split
    · exact List.mem_cons_of_mem _ ih
    · exact ih

/-- Whether a list has the companion of each texture behind it. -/
def AreAccompanied (properties : List Property) : Prop :=
  ∀ i p, properties[i]? = some p → p.type.isTexture = true →
    ∃ companion, properties[i + 1]? = some companion ∧ companion.name = p.name ++ "_ST" ∧
      companion.type = .vector

theorem areAccompanied_nil : AreAccompanied [] := by
  intro i p hp
  cases hp

theorem AreAccompanied.append {front back : List Property} (hfront : AreAccompanied front)
    (hback : AreAccompanied back) : AreAccompanied (front ++ back) := by
  intro i p hp htexture
  by_cases hlt : i < front.length
  · rw [List.getElem?_append_left hlt] at hp
    obtain ⟨companion, hcompanion, hsame⟩ := hfront i p hp htexture
    have hnext : i + 1 < front.length := (List.getElem?_eq_some_iff.1 hcompanion).1
    exact ⟨companion, by rwa [List.getElem?_append_left hnext], hsame⟩
  · rw [List.getElem?_append_right (by omega)] at hp
    obtain ⟨companion, hcompanion, hsame⟩ := hback _ p hp htexture
    refine ⟨companion, ?_, hsame⟩
    rw [List.getElem?_append_right (by omega), ← hcompanion]
    congr 1
    omega

theorem areAccompanied_withCompanion (p : Property) : AreAccompanied (Builder.withCompanion p) := by
  intro i q hq htexture
  rw [Builder.withCompanion] at hq ⊢
  split at hq
  · rename_i hp
    match i with
    | 0 =>
      cases hq
      rw [if_pos htexture]
      exact ⟨.plain (p.name ++ "_ST") .vector "float4(1, 1, 0, 0)", rfl, rfl, rfl⟩
    | 1 =>
      cases hq
      cases htexture
  · rename_i hp
    match i with
    | 0 =>
      cases hq
      exact absurd htexture hp

/-- A declaration is that of a texture if its type word says so. -/
theorem isTexture_of_ofDeclaration? {word default : String} {text : List Char} {isHDR : Bool}
    {type : PropertyType}
    (h : PropertyDefault.ofDeclaration? word text isHDR = some (type, default)) :
    type.isTexture = (PropertyDefault.textureType? (Text.lowerLetters word)).isSome := by
  simp only [PropertyDefault.ofDeclaration?] at h
  generalize Text.lowerLetters word = word at h ⊢
  split at h
  · rename_i hnumber
    have hnone : (PropertyDefault.textureType? word).isSome = false := by
      simp only [PropertyDefault.isFloatWord, PropertyDefault.isIntWord, Bool.or_eq_true,
        decide_eq_true_eq] at hnumber
      rcases hnumber with (rfl | rfl) | rfl | rfl <;> rfl
    rw [hnone]
    split at h
    · obtain ⟨_, -, heq⟩ := Option.map_eq_some_iff.1 h
      cases heq
      rfl
    · obtain ⟨_, -, heq⟩ := Option.map_eq_some_iff.1 h
      split at heq <;> cases heq <;> rfl
  · split at h
    · rename_i hcolor
      obtain ⟨_, -, heq⟩ := Option.map_eq_some_iff.1 h
      cases heq
      rw [hcolor]
      cases isHDR <;> rfl
    · split at h
      · rename_i hvector
        obtain ⟨_, -, heq⟩ := Option.map_eq_some_iff.1 h
        cases heq
        rw [hvector]
        rfl
      · split at h
        · rename_i texture htexture
          cases h
          rw [htexture]
          unfold PropertyDefault.textureType? at htexture
          split at htexture <;> cases htexture <;> rfl
        · rename_i htexture
          cases h
          rw [htexture]
          rfl

namespace Builder

variable {b b' : Builder} {p : Program} {line : String}

/-- Where the next line of a builder stands. -/
def layout (b : Builder) : Layout :=
  ⟨b.program.isSome, b.place, b.announced, b.depth - b.placeDepth⟩

/-! ## What a line leaves of the layout -/

theorem layout_tagsLine (b : Builder) (line : String) : (b.tagsLine line).layout = b.layout := by
  rw [tagsLine]
  generalize Command.tagPairs line.toList = pairs
  induction pairs generalizing b with
  | nil => rfl
  | cons pair rest ih =>
    obtain ⟨key, value⟩ := pair
    rw [List.foldl_cons, ih]
    dsimp only
    split
    · rfl
    · split <;> rfl

theorem layout_propertyLine (h : b.propertyLine line = .ok b') : b'.layout = b.layout := by
  simp only [propertyLine] at h
  split at h
  · cases h
    rfl
  · split at h <;> cases h
    rfl

theorem layout_commandLine (h : b.commandLine line = .ok b') : b'.layout = b.layout.text line := by
  rw [commandLine.eq_def] at h
  rw [Layout.text, show b.layout.place = b.place from rfl]
  dsimp only at h
  split at h
  · rename_i hstart
    rw [hstart]
    dsimp only
    split at h
    · rename_i rest hshader
      cases h
      rw [hshader, if_pos Option.isSome_some]
      rfl
    · rename_i hshader
      cases h
      rw [hshader, Option.isSome_none, if_neg Bool.false_ne_true, hstart]
      rfl
  · rename_i hproperties
    rw [layout_propertyLine h, hproperties]
    rfl
  · rename_i htags
    cases h
    rw [layout_tagsLine, htags]
    rfl
  · rename_i hcommands
    rw [hcommands]
    split at h
    · cases h
      rw [hcommands]
      rfl
    · cases h
      rw [hcommands]
      rfl
    · cases h
      rw [hcommands]
      rfl
    · rename_i hproperties htags _
      cases h
      have hnone : Layout.announces? line = none := by
        rw [Layout.announces?.eq_def]
        split <;> simp_all
      dsimp only
      rw [hnone, hcommands]
      rfl

theorem layout_openBrace (b : Builder) : b.openBrace.layout = b.layout.openBrace := by
  rw [openBrace, Layout.openBrace, show b.layout.announced = b.announced from rfl]
  cases b.announced with
  | some place =>
    dsimp only [layout]
    rw [Int.sub_self]
  | none =>
    dsimp only [layout]
    congr 1
    omega

theorem layout_closeBrace (b : Builder) : b.closeBrace.layout = b.layout.closeBrace := by
  have hdepth : (b.depth == b.placeDepth) = (b.depth - b.placeDepth == 0) := by
    rw [Bool.eq_iff_iff, beq_iff_eq, beq_iff_eq]
    omega
  rw [closeBrace, Layout.closeBrace, layout, layout]
  dsimp only
  rw [hdepth]
  congr 1
  omega

theorem layout_outerLine (hprogram : b.program = none) (h : b.outerLine line = .ok b') :
    b'.layout = b.layout.line line := by
  have hinProgram : b.layout.inProgram = false := by
    rw [layout, hprogram]
    rfl
  rw [outerLine] at h
  rw [Layout.line, hinProgram, if_neg Bool.false_ne_true]
  split at h
  · rename_i hstart
    cases h
    rw [if_pos hstart]
    rfl
  · rename_i hstart
    rw [if_neg hstart]
    split at h
    · rename_i hmarked
      cases h
      rw [if_pos hmarked]
    · rename_i hmarked
      rw [if_neg hmarked]
      split at h
      · rename_i hopen
        cases h
        rw [if_pos hopen, layout_openBrace]
      · rename_i hopen
        rw [if_neg hopen]
        split at h
        · rename_i hclose
          cases h
          rw [if_pos hclose, layout_closeBrace]
        · rename_i hclose
          rw [if_neg hclose]
          exact layout_commandLine h

/-! ## What program blocks leave alone -/

/-- What lines outside of program blocks leave in a builder, besides where it stands. -/
def notes (b : Builder) : Place × Option Place × Int × Int × List Property × List (String × String) :=
  (b.place, b.announced, b.depth, b.placeDepth, b.properties, b.sites)

theorem notes_pragma (b : Builder) (p : Program) (words : List String) :
    (b.pragma p words).1.notes = b.notes := by
  rw [pragma.eq_def]
  split
  · rfl
  · split
    · rfl
    · split <;> rfl

theorem notes_directiveLine (b : Builder) (p : Program) (line : String) :
    (b.directiveLine p line).1.notes = b.notes := by
  rw [directiveLine]
  split
  · exact b.notes_pragma p _
  · rfl
  · rfl

theorem notes_liveLine {p' : Program} (h : b.liveLine p line = .ok (b', p')) : b'.notes = b.notes := by
  rw [liveLine] at h
  split at h
  · cases h
    rfl
  · cases h
    rfl
  · split at h
    · split at h <;> cases h
      rfl
    · split at h <;> cases h <;> rfl

theorem notes_endProgram (h : b.endProgram p = .ok b') : b'.notes = b.notes := by
  rw [endProgram] at h
  obtain ⟨found, -, h⟩ := exists_ok_of_bind h
  split at h
  · cases h
  · split at h <;> cases h
    rfl

theorem notes_programLine (h : b.programLine p line = .ok b') : b'.notes = b.notes := by
  rw [programLine] at h
  split at h
  · exact notes_endProgram h
  · split at h
    · cases h
      rfl
    · dsimp only at h
      split at h
      · cases h
        rfl
      · cases h
        rfl
      · cases h
        exact notes_directiveLine b _ line
      · obtain ⟨⟨b₁, p₁⟩, hlive, heq⟩ := exists_ok_of_map h
        cases heq
        have hnotes := notes_liveLine hlive
        exact hnotes

/-! ## What a builder collects -/

/-- A builder that has declared and used more names. -/
structure Collects (b b' : Builder) (declared used : List String) : Prop where
  declared : ∃ more, b'.properties = b.properties ++ more ∧ more.map (·.name) = declared ∧
    AreAccompanied more
  used : b'.sites.map (·.1) = b.sites.map (·.1) ++ used

theorem Collects.of_same (hproperties : b'.properties = b.properties) (hsites : b'.sites = b.sites) :
    Collects b b' [] [] where
  declared := ⟨[], by rw [hproperties, List.append_nil], rfl, areAccompanied_nil⟩
  used := by rw [hsites, List.append_nil]

theorem Collects.trans {b₁ b₂ : Builder} {declared used declared' used' : List String}
    (h : Collects b b₁ declared used) (h' : Collects b₁ b₂ declared' used') :
    Collects b b₂ (declared ++ declared') (used ++ used') := by
  obtain ⟨front, hfront, hnames, haccompanied⟩ := h.declared
  obtain ⟨back, hback, hnames', haccompanied'⟩ := h'.declared
  refine ⟨⟨front ++ back, ?_, ?_, haccompanied.append haccompanied'⟩, ?_⟩
  · rw [hback, hfront, List.append_assoc]
  · rw [List.map_append, hnames, hnames']
  · rw [h'.used, h.used, List.append_assoc]

theorem collects_tagsLine (b : Builder) (line : String) : Collects b (b.tagsLine line) [] [] := by
  rw [tagsLine]
  generalize Command.tagPairs line.toList = pairs
  induction pairs generalizing b with
  | nil => exact .of_same rfl rfl
  | cons pair rest ih =>
    obtain ⟨key, value⟩ := pair
    rw [List.foldl_cons]
    refine @Collects.trans b _ _ [] [] [] [] ?_ (ih _)
    dsimp only
    split
    · exact .of_same rfl rfl
    · split <;> exact .of_same rfl rfl

/-- A line of the block of properties declares its names. -/
theorem collects_propertyLine (h : b.propertyLine line = .ok b') :
    Collects b b' (declaredNames line) [] := by
  simp only [propertyLine] at h
  rw [declaredNames]
  split at h
  · rename_i hempty
    cases h
    rw [List.isEmpty_iff.1 hempty]
    exact .of_same rfl rfl
  · split at h
    · cases h
    · rename_i p hp
      cases h
      obtain ⟨head, text, hhead, -, htype, hname⟩ := property?_eq_some hp
      refine ⟨⟨_, rfl, ?_, areAccompanied_withCompanion p⟩, (List.append_nil _).symm⟩
      rw [hhead]
      dsimp only
      rw [← isTexture_of_ofDeclaration? htype, hname, withCompanion]
      split <;> rfl

/-- A line of text declares names in the block of properties, and uses names where commands are. -/
theorem collects_commandLine (h : b.commandLine line = .ok b') :
    Collects b b' (if b.place = .properties then declaredNames line else [])
      (if b.place = .commands then bracketedNames line else []) := by
  rw [commandLine.eq_def] at h
  dsimp only at h
  split at h
  · rename_i hplace
    rw [hplace]
    split at h <;> cases h <;> exact .of_same rfl rfl
  · rename_i hplace
    rw [hplace]
    have hcollects := collects_propertyLine h
    exact ⟨hcollects.declared, hcollects.used⟩
  · rename_i hplace
    rw [hplace]
    cases h
    have hcollects := collects_tagsLine { b with announced := none } line
    exact ⟨hcollects.declared, hcollects.used⟩
  · rename_i hplace
    rw [hplace, if_neg (by decide), if_pos rfl]
    split at h
    · cases h
      exact .of_same rfl rfl
    · cases h
      exact .of_same rfl rfl
    · cases h
      exact .of_same rfl rfl
    · cases h
      refine ⟨⟨[], (List.append_nil _).symm, rfl, areAccompanied_nil⟩, ?_⟩
      rw [List.map_append, List.map_map, bracketedNames]
      congr 1
      exact List.map_id _

theorem collects_outerLine (h : b.outerLine line = .ok b') :
    Collects b b'
      (if b.place = .properties ∧ Layout.isText line = true then declaredNames line else [])
      (if b.place = .commands ∧ Layout.isText line = true then bracketedNames line else []) := by
  have hsame : Layout.isText line = false → b'.properties = b.properties → b'.sites = b.sites →
      Collects b b'
        (if b.place = .properties ∧ Layout.isText line = true then declaredNames line else [])
        (if b.place = .commands ∧ Layout.isText line = true then bracketedNames line else []) := by
    intro hline hproperties hsites
    rw [hline, if_neg nofun, if_neg nofun]
    exact .of_same hproperties hsites
  rw [outerLine] at h
  split at h
  · rename_i hstart
    cases h
    exact hsame (by rw [Layout.isText, hstart]; rfl) rfl rfl
  · rename_i hstart
    split at h
    · rename_i hmarked
      cases h
      exact hsame (by rw [Layout.isText, hmarked, Bool.not_true, Bool.and_false]; rfl) rfl rfl
    · rename_i hmarked
      split at h
      · rename_i hopen
        cases h
        refine hsame (by rw [hopen]; decide) ?_ ?_ <;> rw [openBrace] <;> split <;> rfl
      · rename_i hopen
        split at h
        · rename_i hclose
          cases h
          refine hsame ?_ rfl rfl
          rw [Bool.or_eq_true, decide_eq_true_iff, decide_eq_true_iff] at hclose
          rcases hclose with rfl | rfl <;> decide
        · rename_i hclose
          rw [Bool.or_eq_true, decide_eq_true_iff, decide_eq_true_iff, not_or] at hclose
          have htext : Layout.isText line = true := by
            simp only [Layout.isText, Bool.and_eq_true, Bool.not_eq_true', bne_iff_ne]
            exact ⟨⟨⟨⟨by simpa using hstart, by simpa using hmarked⟩, hopen⟩, hclose.1⟩, hclose.2⟩
          simp only [htext, and_true]
          exact collects_commandLine h

/-! ## Runs -/

variable {s : Sources} {w w' : Walk} {e : Event} {moments : List (Moment Builder)}

/-- Only whether a program block is open may differ where the notes do not. -/
theorem layout_of_notes (h : b'.notes = b.notes) :
    b'.layout = { b.layout with inProgram := b'.program.isSome } := by
  simp only [notes, Prod.mk.injEq] at h
  obtain ⟨hplace, hannounced, hdepth, hplaceDepth, -, -⟩ := h
  rw [layout, layout, hplace, hannounced, hdepth, hplaceDepth]

theorem Collects.of_notes (h : b'.notes = b.notes) : Collects b b' [] [] := by
  simp only [notes, Prod.mk.injEq] at h
  exact .of_same h.2.2.2.2.1 h.2.2.2.2.2

/-- What an event leaves. -/
structure Leaves (b b' : Builder) (e : Event) : Prop where
  layout : b'.layout = b.layout.event e
  collects : Collects b b' ((b.layout.textIn? .properties e).toList.flatMap declaredNames)
    ((b.layout.textIn? .commands e).toList.flatMap bracketedNames)

theorem leaves_event (h : Builder.event s b w e = .ok (b', w')) : Leaves b b' e := by
  cases e with
  | line file text =>
    obtain ⟨b₁, hread, heq⟩ := exists_ok_of_map h
    cases heq
    cases hprogram : b.program with
    | none =>
      rw [hprogram] at hread
      have hinProgram : b.layout.inProgram = false := by
        rw [layout, hprogram]
        rfl
      refine ⟨layout_outerLine hprogram hread, ?_⟩
      have hcollects := collects_outerLine hread
      rw [Layout.textIn?, Layout.textIn?, hinProgram, show b.layout.place = b.place from rfl]
      simp only [Bool.not_false, Bool.true_and, Bool.and_eq_true, decide_eq_true_eq]
      rw [apply_ite Option.toList, apply_ite Option.toList, apply_ite (List.flatMap declaredNames),
        apply_ite (List.flatMap bracketedNames)]
      simpa using hcollects
    | some p =>
      rw [hprogram] at hread
      have hinProgram : b.layout.inProgram = true := by
        rw [layout, hprogram]
        rfl
      have hnotes := notes_programLine hread
      refine ⟨?_, ?_⟩
      · have hafter : b'.program.isSome = !isBlockEnd text := by
          cases hend : isBlockEnd text with
          | true =>
            dsimp only at hread
            rw [programLine, if_pos hend] at hread
            rw [(endProgram_eq hread).1]
            rfl
          | false =>
            rw [(keeps_programLine hprogram hend hread).program, hprogram]
            rfl
        rw [Layout.event, Layout.line, hinProgram, if_pos rfl, ← hafter]
        exact layout_of_notes hnotes
      · rw [Layout.textIn?, Layout.textIn?, hinProgram]
        exact .of_notes hnotes
  | include_ file directive target =>
    rw [Builder.event] at h
    split at h
    · cases h
      exact ⟨rfl, .of_same rfl rfl⟩
    · rename_i p hprogram
      have hleaves : Leaves b
          { b with program := some { p with filter := (p.filter.feed directive).filter } }
          (.include_ file directive target) := by
        refine ⟨?_, .of_same rfl rfl⟩
        show _ = b.layout
        rw [layout, layout, hprogram]
        rfl
      dsimp only at h
      split at h <;> cases h <;> exact hleaves
  | endInclude directive target =>
    cases h
    exact ⟨rfl, .of_same rfl rfl⟩

/-- **What a run collects** is on the lines of its places. -/
theorem collects_of_run (h : Run s (Builder.event s) b w moments b' w') :
    Collects b b'
      ((Layout.linesIn .properties b.layout (moments.map (·.event))).flatMap declaredNames)
      ((Layout.linesIn .commands b.layout (moments.map (·.event))).flatMap bracketedNames) := by
  induction h with
  | nil => exact .of_same rfl rfl
  | cons next step_eq rest ih =>
    have hleaves := leaves_event step_eq
    rw [hleaves.layout] at ih
    simp only [List.map_cons, Layout.linesIn, List.flatMap_append]
    exact hleaves.collects.trans ih

end Builder

end ShaderMerge
