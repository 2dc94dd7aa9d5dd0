import Derivatives.Proofs.Formula
import Derivatives.Proofs.Graph.Visit

/-!
# Runs of operations

A graph is built node by node, and by deriving what stands in it; formulas are made of
its places, or come from lines, and are derived in turn (`Operation`). A store
(`Store`) holds a graph and the formulas, and knows the places that have been returned.

Each operation keeps the store sound, i.e., its graphs well-formed and its places in
them, and only appends to its graphs (`Store.perform_sound_grows`), and so does a run
(`Store.run_sound_grows`). So a place means the same forever (`Graph.Keeps`), and no
visit to a place fails (`Graph.Visitable`), on any store that a run leads to
(`Store.run_keeps_visitable`).
-/

namespace Derivatives

/-! ## What is kept -/

/-- Two formulas have the same value everywhere, infix form, code and measures. -/
structure Formula.Agrees (f f' : Formula) : Prop where
  eval : ∀ x, f.eval x = f'.eval x
  render : f.render = f'.render
  commands : ∀ x, f.commands x = f'.commands x
  depth : f.depth = f'.depth
  nodeCount : f.nodeCount = f'.nodeCount

/-- Each place of a graph has the same node in the other, and formulas there agree. -/
def Graph.Keeps (g g' : Graph) : Prop :=
  ∀ place < g.size, g'.nodes[place]? = g.nodes[place]? ∧ Formula.Agrees ⟨g', place⟩ ⟨g, place⟩

theorem Graph.Extends.keeps {g g' : Graph} (h : g.Extends g') : g.Keeps g' := by
  intro place hlt
  obtain ⟨node, hn⟩ := exists_getElem? hlt
  have hexpr : Formula.toExpr ⟨g', place⟩ = Formula.toExpr ⟨g, place⟩ := h.unfold_eq hlt
  refine ⟨(h.getElem? hn).trans hn.symm, ?_⟩
  constructor
  · exact fun x => congrArg (Expr.eval x) hexpr
  · exact congrArg Expr.render hexpr
  · intro x
    rw [Formula.commands_eq, Formula.commands_eq, hexpr]
  · exact h.fold_eq _ hlt
  · exact h.fold_eq _ hlt

theorem Formula.extends_derivative {f : Formula} (hf : f.WellFormed) :
    f.graph.Extends f.derivative.graph :=
  (Graph.derive_grown_isDerivative hf.graph hf.root).1.extension

/-! ## Operations -/

/-- A graph in use. -/
structure Store where
  /-- The graph. -/
  graph : Graph := {}
  /-- The places in it that have been returned. -/
  places : List Nat := []
  /-- The formulas, each with a graph of its own. -/
  formulas : List Formula := []

/-- What is done to a store. -/
inductive Operation
  /-- A node is added. -/
  | add (node : Node Nat)
  /-- The expression at a place is derived. -/
  | derive (place : Nat)
  /-- A formula is made of the graph and a place in it. -/
  | formula (root : Nat)
  /-- A line is read. -/
  | parse (line : String)
  /-- A formula is derived. -/
  | derivative (i : Nat)
  /-- A formula is replaced by its derivative. -/
  | intoDerivative (i : Nat)

namespace Store

/-- A store after an operation, if what it refers to is there. -/
def perform (s : Store) : Operation → Option Store
  | .add node => do
    let (graph, place) ← s.graph.add? node
    return { s with graph, places := s.places ++ [place] }
  | .derive place =>
    if place < s.graph.size then
      let (graph, d) := s.graph.derive place
      some { s with graph, places := s.places ++ [d] }
    else none
  | .formula root =>
    if root < s.graph.size then some { s with formulas := s.formulas ++ [⟨s.graph, root⟩] }
    else none
  | .parse line =>
    match Formula.parse line with
    | .ok f => some { s with formulas := s.formulas ++ [f] }
    | .error _ => some s
  | .derivative i => do
    let f ← s.formulas[i]?
    return { s with formulas := s.formulas ++ [f.derivative] }
  | .intoDerivative i => do
    let f ← s.formulas[i]?
    return { s with formulas := s.formulas.set i f.derivative }

/-- A store after several operations. -/
def run (s : Store) (operations : List Operation) : Option Store := operations.foldlM perform s

/-- The graphs are well-formed, and the places are places in them. -/
structure Sound (s : Store) : Prop where
  graph : s.graph.WellFormed
  places : ∀ place ∈ s.places, place < s.graph.size
  formulas : ∀ f ∈ s.formulas, f.WellFormed

/-- The graph of a store, and those of its formulas, have only been appended to. -/
structure Grows (s s' : Store) : Prop where
  graph : s.graph.Extends s'.graph
  places : s.places <+: s'.places
  formulas : ∀ (i : Nat) (f : Formula), s.formulas[i]? = some f →
    ∃ f', s'.formulas[i]? = some f' ∧ f.graph.Extends f'.graph

variable {s s' s'' : Store}

theorem sound_empty : Sound {} :=
  ⟨Graph.wellFormed_empty, fun _ h => absurd h List.not_mem_nil,
    fun _ h => absurd h List.not_mem_nil⟩

theorem Grows.refl (s : Store) : s.Grows s :=
  ⟨.refl _, List.prefix_rfl, fun _ f hf => ⟨f, hf, .refl _⟩⟩

theorem Grows.trans (h : s.Grows s') (h' : s'.Grows s'') : s.Grows s'' := by
  refine ⟨h.graph.trans h'.graph, List.IsPrefix.trans h.places h'.places, fun i f hf => ?_⟩
  obtain ⟨f', hf', hext⟩ := h.formulas i f hf
  obtain ⟨f'', hf'', hext'⟩ := h'.formulas i f' hf'
  exact ⟨f'', hf'', hext.trans hext'⟩

/-- What comes of the graph of a sound store, with the place returned. -/
theorem Sound.of_grown (hs : s.Sound) {result : Graph × Nat} (h : s.graph.Grown result) :
    let s' := { s with graph := result.1, places := s.places ++ [result.2] }
    s'.Sound ∧ s.Grows s' := by
  refine ⟨⟨h.wellFormed, ?_, hs.formulas⟩,
    ⟨h.extension, List.prefix_append _ _, fun i f hf => ⟨f, hf, .refl _⟩⟩⟩
  rw [List.forall_mem_append, List.forall_mem_singleton]
  exact ⟨fun place hp => Nat.lt_of_lt_of_le (hs.places place hp) h.extension.size_le, h.lt_size⟩

/-- A well-formed formula joins a sound store. -/
theorem Sound.of_formula (hs : s.Sound) {f : Formula} (hf : f.WellFormed) :
    let s' := { s with formulas := s.formulas ++ [f] }
    s'.Sound ∧ s.Grows s' := by
  refine ⟨⟨hs.graph, hs.places, ?_⟩, ⟨.refl _, List.prefix_rfl, fun i f' hf' => ⟨f', ?_, .refl _⟩⟩⟩
  · rw [List.forall_mem_append, List.forall_mem_singleton]
    exact ⟨hs.formulas, hf⟩
  · rw [List.getElem?_append_left (List.getElem?_eq_some_iff.1 hf').1, hf']

/-- The derivative of a formula of a sound store takes the place of the formula. -/
theorem Sound.of_derivative (hs : s.Sound) {i : Nat} {f : Formula} (hi : s.formulas[i]? = some f) :
    let s' := { s with formulas := s.formulas.set i f.derivative }
    s'.Sound ∧ s.Grows s' := by
  have hf : f.WellFormed := hs.formulas f (List.mem_of_getElem? hi)
  refine ⟨⟨hs.graph, hs.places, fun f' hf' => ?_⟩, ⟨.refl _, List.prefix_rfl, fun j f' hj => ?_⟩⟩
  · rcases List.mem_or_eq_of_mem_set hf' with hf' | rfl
    · exact hs.formulas f' hf'
    · exact Formula.derivative_wellFormed hf
  · by_cases hij : i = j
    · subst hij
      obtain rfl := Option.some.inj (hi.symm.trans hj)
      have hlt := (List.getElem?_eq_some_iff.1 hi).1
      exact ⟨f.derivative, List.getElem?_set_self hlt, Formula.extends_derivative hf⟩
    · exact ⟨f', (List.getElem?_set_ne hij).trans hj, .refl _⟩

/-- Each operation keeps a store sound, and only appends to its graphs. -/
theorem perform_sound_grows (hs : s.Sound) {operation : Operation}
    (h : s.perform operation = some s') : s'.Sound ∧ s.Grows s' := by
  cases operation with
  -- Two operations append to the graph, under guards that keep it well-formed.
  | add node =>
    rw [perform, Graph.add?] at h
    split at h
    · next hoperands =>
      obtain rfl := Option.some.inj h
      exact hs.of_grown (hs.graph.add_grown hoperands)
    · cases h
  | derive place =>
    rw [perform] at h
    split at h
    · next hlt =>
      obtain rfl := Option.some.inj h
      exact hs.of_grown (Graph.derive_grown_isDerivative hs.graph hlt).1
    · cases h
  -- The others append a formula, or put one in the place of what it extends.
  | formula root =>
    rw [perform] at h
    split at h
    · next hlt =>
      obtain rfl := Option.some.inj h
      exact hs.of_formula ⟨hs.graph, hlt⟩
    · cases h
  | parse line =>
    rw [perform] at h
    split at h
    · next f hparse =>
      obtain rfl := Option.some.inj h
      exact hs.of_formula (Formula.wellFormed_of_parse hparse)
    · obtain rfl := Option.some.inj h
      exact ⟨hs, .refl s⟩
  | derivative i =>
    obtain ⟨f, hi, hs'⟩ := Option.bind_eq_some_iff.1 h
    obtain rfl := Option.some.inj hs'
    have hf : f.WellFormed := hs.formulas f (List.mem_of_getElem? hi)
    exact hs.of_formula (Formula.derivative_wellFormed hf)
  | intoDerivative i =>
    obtain ⟨f, hi, hs'⟩ := Option.bind_eq_some_iff.1 h
    obtain rfl := Option.some.inj hs'
    exact hs.of_derivative hi

/-- So does a run. -/
theorem run_sound_grows (hs : s.Sound) {operations : List Operation}
    (h : s.run operations = some s') : s'.Sound ∧ s.Grows s' := by
  induction operations generalizing s with
  | nil =>
    obtain rfl := Option.some.inj h
    exact ⟨hs, .refl s⟩
  | cons operation operations ih =>
    rw [run, List.foldlM_cons] at h
    obtain ⟨next, hnext, hrun⟩ := Option.bind_eq_some_iff.1 h
    obtain ⟨hsound, hgrows⟩ := perform_sound_grows hs hnext
    obtain ⟨hsound', hgrows'⟩ := ih hsound hrun
    exact ⟨hsound', hgrows.trans hgrows'⟩

/-- Any store that a run leads to is sound, and whatever is done to it next only appends to
    its graphs, so that their places mean the same forever; and no visit to a place fails. -/
theorem run_keeps_visitable {operations operations' : List Operation}
    (h : run {} operations = some s) (h' : s.run operations' = some s') :
    s.Sound ∧ s.Grows s' ∧ s.graph.Keeps s'.graph ∧
    (∀ (i : Nat) (f : Formula), s.formulas[i]? = some f →
      f.graph.Extends f.derivative.graph ∧ f.graph.Keeps f.derivative.graph ∧
      ∃ f', s'.formulas[i]? = some f' ∧ f.graph.Keeps f'.graph) ∧
    (∀ place < s.graph.size, s.graph.Visitable place) ∧
    ∀ f ∈ s.formulas, ∀ place < f.graph.size, f.graph.Visitable place := by
  obtain ⟨hs, -⟩ := run_sound_grows sound_empty h
  obtain ⟨-, hgrows⟩ := run_sound_grows hs h'
  refine ⟨hs, hgrows, hgrows.graph.keeps, fun i f hf => ?_, fun place hlt => hs.graph.visitable hlt,
    fun f hf place hlt => (hs.formulas f hf).graph.visitable hlt⟩
  have hderivative := Formula.extends_derivative (hs.formulas f (List.mem_of_getElem? hf))
  obtain ⟨f', hf', hext⟩ := hgrows.formulas i f hf
  exact ⟨hderivative, hderivative.keeps, f', hf', hext.keeps⟩

/-- A square, its derivative, and a formula of each, of which one is derived in turn. -/
theorem run_keeps_visitable_square :
    ∃ s s', run {} [.add .var, .add (.binary .mul 0 0), .formula 1] = some s ∧
      s.run [.derive 1, .derivative 0, .intoDerivative 0] = some s' ∧
      s.graph.Keeps s'.graph ∧ s.graph.Visitable 1 := by
  let s : Store := ⟨⟨#[.var, .binary .mul 0 0]⟩, [0, 1], [⟨⟨#[.var, .binary .mul 0 0]⟩, 1⟩]⟩
  have h : run {} [.add .var, .add (.binary .mul 0 0), .formula 1] = some s := rfl
  have h' : s.run [.derive 1, .derivative 0, .intoDerivative 0] = some _ := rfl
  obtain ⟨-, -, hkeeps, -, hvisitable, -⟩ := run_keeps_visitable h h'
  exact ⟨s, _, h, h', hkeeps, hvisitable 1 (by decide)⟩

end Store

end Derivatives
