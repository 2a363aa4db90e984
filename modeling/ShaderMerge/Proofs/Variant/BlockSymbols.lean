import ShaderMerge.Proofs.Condition.Scopes
import ShaderMerge.Proofs.Include.Project
import ShaderMerge.Proofs.Table
import ShaderMerge.Proofs.Variant.Numbering

/-!
# What a program block knows of symbols at its start

The filter of a program block starts with what the light mode of its pass and the options say of
symbols.  They speak in layers (`layers`), and of the layers that name a symbol the last one counts
(`lastSaid`).  The symbol of variants itself is defined by the first line that is written into every
block.  The filter takes it for defined as well, unless a layer of the options names it: then it knows
what that layer says, and the line is written all the same (`startsBlock_of_event`).
-/

namespace ShaderMerge.Variant

open Condition (Filter)
open Condition.Scopes (get_new)
open Include (Walk isProgramStart)

variable {r : Request} {w w' : Writer} {name : String}

/-! ## Layers -/

/-- What is said of symbols in a block, the later layers counting more: by the light mode of its
pass, the known symbols, the color space, the keywords that are on or off everywhere, and those of
the pass. -/
def layers (o : Options) (index : Nat) (pass : Pass) : List (String → Option Bool) :=
  [fun name => (LightMode.defines pass.lightMode).lookup name,
    fun name => o.known.get? name,
    fun name => o.colorSpace.bind fun c => if name = c.known.1 then some c.known.2 else none,
    fun name => if o.enabled.contains name then some true else none,
    fun name => if o.disabled.contains name then some false else none,
    fun name => (o.passKeywords.get? index).bind (·.get? name)]

/-- What the last layer that names a symbol says of it. -/
def lastSaid (layers : List (String → Option Bool)) (name : String) : Option Bool :=
  layers.reverse.findSome? (· name)

@[simp]
theorem lastSaid_nil : lastSaid [] name = none := rfl

theorem lastSaid_cons (layer : String → Option Bool) (layers : List (String → Option Bool)) :
    lastSaid (layer :: layers) name = (lastSaid layers name).or (layer name) := by
  rw [lastSaid, List.reverse_cons, List.findSome?_append, List.findSome?_singleton, lastSaid]

/-- A light mode says of each symbol one thing. -/
theorem lookup_reverse_defines (mode : Option String) (name : String) :
    (LightMode.defines mode).reverse.lookup name = (LightMode.defines mode).lookup name := by
  refine Table.lookup_reverse ?_ name
  unfold LightMode.defines
  split
  · exact List.nodup_nil
  · split
    · rw [List.map_map]
      exact (by decide : (LightMode.symbols.map (·.2)).Nodup)
    · exact List.nodup_nil

theorem lookup_reverse_keys (names : NameSet) (value : Bool) (name : String) :
    (names.keys.map (·, value)).reverse.lookup name
      = if names.contains name then some value else none := by
  have hentries : names.keys.map (·, value) = (names.map fun _ _ => value).entries := by
    rw [Table.keys, List.map_map]
    rfl
  rw [hentries, Table.lookup_reverse_entries, Table.get?_map, Table.contains]
  cases names.get? name <;> rfl

theorem lookup_reverse_colorSpace (space : Option ColorSpace) (name : String) :
    ((space.map ColorSpace.known).toList).reverse.lookup name
      = space.bind fun c => if name = c.known.1 then some c.known.2 else none := by
  cases space with
  | none => rfl
  | some c => exact Table.lookup_cons_eq_ite name c.known.1 c.known.2 []

theorem lookup_reverse_passKeywords (keywords : Option (Table String Bool)) (name : String) :
    ((keywords.map (·.entries)).getD []).reverse.lookup name = keywords.bind (·.get? name) := by
  cases keywords with
  | none => rfl
  | some keywords => exact keywords.lookup_reverse_entries name

/-- What a block is given says of a symbol what the options say, in their layers; behind them
comes the symbol of variants, and last the light mode. -/
theorem lookup_reverse_seed (o : Options) (index : Nat) (pass : Pass) (name : String) :
    (Program.seed o index pass).reverse.lookup name
      = (lastSaid (layers o index pass).tail name).or
        ((if name = variantSymbol then some true else none).or
          ((LightMode.defines pass.lightMode).lookup name)) := by
  have hsymbol : [(variantSymbol, true)].lookup name
      = if name = variantSymbol then some true else none :=
    Table.lookup_cons_eq_ite name variantSymbol true []
  simp only [Program.seed, Options.passDefines, List.reverse_append, List.lookup_append,
    List.reverse_singleton, hsymbol, lookup_reverse_keys, lookup_reverse_colorSpace,
    lookup_reverse_passKeywords, lookup_reverse_defines, Table.lookup_reverse_entries, layers,
    List.tail_cons, lastSaid_cons, lastSaid_nil, Option.none_or, Option.or_assoc]

theorem lookup_defines_variantSymbol (mode : Option String) :
    (LightMode.defines mode).lookup variantSymbol = none := by
  unfold LightMode.defines
  split
  · rfl
  · split
    · -- No light mode has the symbol of variants.
      simp only [LightMode.symbols, List.map_cons, List.map_nil, Table.lookup_cons_eq_ite]
      simp [variantSymbol]
    · rfl

/-! ## The start of a block -/

/-- What the last layer that names a symbol says of it in the next program block. -/
def Writer.said (r : Request) (w : Writer) : String → Option Bool :=
  lastSaid (layers r.options w.programs ((r.shader.passes[w.programs]?).getD .empty))

/-- What is written and known when a writer starts a program block.  Whatever the options say, the
definition of the symbol of variants is written behind the first line. -/
structure Writer.StartsBlock (r : Request) (w w' : Writer) (p : Program) : Prop where
  written : ∃ line more, isProgramStart line = true ∧
    w' = { w.put (line :: ("#define " ++ variantSymbol) :: more) with
      program := some p, programs := w.programs + 1 }
  others : ∀ name, name ≠ variantSymbol →
    p.filter.defined name = (w.said r name).elim .unknown Truth.ofBool
  ofVariant : p.filter.defined variantSymbol = Truth.ofBool ((w.said r variantSymbol).getD true)

/-- **What a block knows at its start.**  Whenever a program block starts, it knows of every symbol
but that of variants what the last layer says that names it, and nothing if there is none.  The symbol
of variants is defined for it unless a layer names that symbol: then the block knows what the last
such layer says. -/
theorem startsBlock_of_event {m : Include.Moment Writer} {walk : Walk} {p : Program}
    (h : Writer.event r m.before m.walk m.event = .ok (m.after, walk))
    (hbefore : m.before.program = none) (hafter : m.after.program = some p) :
    m.before.StartsBlock r m.after p := by
  obtain ⟨line, -, hstart, -, hprogram⟩ := Writer.exists_start h hbefore (by rw [hafter]; rfl)
  obtain ⟨plan, -, heq⟩ := Writer.startProgram_eq hprogram
  obtain ⟨pass, hpass⟩ : ∃ pass, (r.shader.passes[m.before.programs]?).getD .empty = pass := ⟨_, rfl⟩
  rw [hpass] at heq
  obtain rfl : Program.new r.options m.before.programs pass plan = p := by
    rw [heq] at hafter
    exact Option.some_inj.1 hafter
  have hdefined : ∀ name,
      (Program.new r.options m.before.programs pass plan).filter.defined name
        = ((Program.seed r.options m.before.programs pass).reverse.lookup name).elim
          .unknown Truth.ofBool := fun name => get_new _ name
  have hsaid : ∀ name, m.before.said r name
      = (lastSaid (layers r.options m.before.programs pass).tail name).or
        ((LightMode.defines pass.lightMode).lookup name) := by
    intro name
    rw [Writer.said, hpass]
    exact lastSaid_cons _ _
  refine ⟨⟨line, (Program.prelude r.substitution plan pass).tail, hstart, heq⟩,
    fun name hname => ?_, ?_⟩
  · rw [hdefined, lookup_reverse_seed, if_neg hname, Option.none_or, hsaid]
  · rw [hdefined, lookup_reverse_seed, if_pos rfl, hsaid, lookup_defines_variantSymbol,
      Option.or_none]
    cases lastSaid (layers r.options m.before.programs pass).tail variantSymbol <;> rfl

/-- A shader that asks whether it is a variant. -/
def asksForVariant : List String :=
  ["Shader \"S\"", "\x7b", "Pass", "\x7b", "CGPROGRAM", "#pragma vertex vert",
    "#pragma fragment frag", "#ifdef OPTIMIZER_ENABLED", "float kept;", "#else", "float lost;",
    "#endif", "float4 vert() : SV_Position \x7b return 0; \x7d",
    "float4 frag() : SV_Target \x7b return 1; \x7d", "ENDCG", "\x7d", "\x7d"]

/-- Options that say of the symbol of variants that it is not defined. -/
def undefinedSymbol : Options :=
  { Options.new with known := Table.ofList [(variantSymbol, false)] }

/-- The variant defines its symbol, and its block takes it for undefined. -/
theorem startsBlock_of_undefinedSymbol :
    ∃ shader g substitution m walk p,
      Shader.read? (.ofFiles [("a.shader", asksForVariant)]) "a.shader" = .ok shader ∧
      shader.variant undefinedSymbol = .ok g ∧ "#define OPTIMIZER_ENABLED" ∈ g.main.lines ∧
      "float kept;" ∉ g.main.lines ∧ m ∈ Writer.moments shader undefinedSymbol ∧
      Writer.event ⟨shader, undefinedSymbol, substitution⟩ m.before m.walk m.event
        = .ok (m.after, walk) ∧
      m.before.program = none ∧ m.after.program = some p ∧
      p.filter.defined variantSymbol = .no ∧
      m.before.StartsBlock ⟨shader, undefinedSymbol, substitution⟩ m.after p := by
  have hlines : (Project.ofFiles [("a.shader", asksForVariant)]).readLines? "a.shader"
      = some asksForVariant :=
    Project.readLines?_ofFiles (by decide +kernel) (by decide +kernel)
  have hcheck : (Shader.read? (.ofFiles [("a.shader", asksForVariant)]) "a.shader").toOption.any
      (fun shader => (shader.variant undefinedSymbol).toOption.any fun g : GeneratedShader =>
        decide ("#define OPTIMIZER_ENABLED" ∈ g.main.lines ∧ "float kept;" ∉ g.main.lines) &&
        (Writer.moments shader undefinedSymbol).any fun m => m.before.program.isNone &&
          m.after.program.any fun p => decide (p.filter.defined variantSymbol = .no)) = true := by
    rw [Shader.read?, Include.Sources.load, hlines]
    decide +kernel
  obtain ⟨shader, hread, hshader⟩ := exists_ok_of_any hcheck
  obtain ⟨g, hvariant, hg⟩ := exists_ok_of_any hshader
  obtain ⟨hmain, hmoments⟩ := Bool.and_eq_true_iff.1 hg
  obtain ⟨m, hm, hblock⟩ := List.any_eq_true.1 hmoments
  obtain ⟨hbefore, hany⟩ := Bool.and_eq_true_iff.1 hblock
  obtain ⟨p, hafter, hno⟩ := (Option.any_eq_true _ _).1 hany
  -- The moment is a step of the run that writes the variant.
  obtain ⟨substitution, w, walk, -, hrun, -, -⟩ := Writer.writes_moments hvariant
  obtain ⟨front, back, hsplit⟩ := List.append_of_mem hm
  rw [hsplit] at hrun
  obtain ⟨_, walk, -, -, hstep, -⟩ := hrun.split
  have hnone := Option.isNone_iff_eq_none.1 hbefore
  exact ⟨shader, g, substitution, m, walk, p, hread, hvariant, (of_decide_eq_true hmain).1,
    (of_decide_eq_true hmain).2, hm, hstep, hnone, hafter, of_decide_eq_true hno,
    startsBlock_of_event hstep hnone hafter⟩

end ShaderMerge.Variant
