import SafeRefactor.Proofs.Lineage
import SafeRefactor.Proofs.Tracking

/-!
# What flows into a region

A region is a run of statements next to each other.  If some path through it reads a
followed symbol before writing it, and a value of the symbol can be there when the
region starts, then the symbol is live into the region.
-/

namespace SafeRefactor

/-- A run of statements next to each other in a statement list of a tree. -/
structure Node.Siblings (tree parent : Node) (role : Role) (run : List Node) : Prop where
  inside : parent ∈ tree.nodes
  block : role.isBlock = true
  contiguous : run <:+: parent.field role

theorem Form.slot_of_block {form : Form} {role : Role} {slot : Slot} (block : role.isBlock = true)
    (listed : (role, slot) ∈ form.slots) : slot = .statement := by
  have all : ∀ entry ∈ form.slots, entry.1.isBlock = true → entry.2 = .statement := by
    cases form <;> simp [Form.slots, Role.isBlock]
  exact all _ listed block

namespace Node.Siblings

variable {tree parent statement : Node} {role : Role} {run : List Node}

theorem child (siblings : tree.Siblings parent role run) (member : statement ∈ run) :
    statement ∈ parent.children ∧ statement.role = role :=
  Node.mem_field.mp (siblings.contiguous.subset member)

theorem mem (siblings : tree.Siblings parent role run) (member : statement ∈ run) :
    statement ∈ tree.nodes :=
  Node.nodes_trans (Node.child_mem_nodes (siblings.child member).1) siblings.inside

theorem fits (siblings : tree.Siblings parent role run) (wellFormed : tree.WellFormed)
    (member : statement ∈ run) : statement.fits .statement = true := by
  obtain ⟨isChild, plays⟩ := siblings.child member
  obtain ⟨slot, listed, fitting⟩ := wellFormed.slot_of_child siblings.inside isChild
  rw [plays] at listed
  rwa [Form.slot_of_block siblings.block listed] at fitting

end Node.Siblings

theorem Node.isBlock_of_fits {node : Node} (fitting : node.fits .statement = true) :
    node.form.isBlock = true :=
  Form.isBlock_of_isStatement (Node.admits_of_fits fitting)

def Form.isNamedExpr : Form → Bool
  | .namedExpr => true
  | _ => false

/-- Code that following it does justice to. -/
structure Model.Followable (model : Model) (tracked : SymbolSet) (node : Node) : Prop where
  /-- There is no assignment expression. -/
  plain : ∀ inner ∈ node.nodes, inner.form.isNamedExpr = false
  /-- No loop has both an `else` and a `break` of its own. -/
  loops : ∀ loop ∈ node.nodes, loop.form.isLoop = true →
    loop.field .orelse = [] ∨ ∀ statement ∈ loop.field .body, statement.jumps .broken = false
  /-- No value, class or key of a pattern mentions a followed symbol. -/
  patterns : ∀ pattern ∈ node.nodes, Slot.isPattern pattern.form = true →
    ∀ value ∈ pattern.children, Slot.isExpression value.form = true →
      ∀ name ∈ value.nodes, name.identifier?.isSome = true →
        ∀ symbol ∈ tracked, model.resolve name ≠ some symbol

instance (model : Model) (tracked : SymbolSet) (node : Node) :
    Decidable (model.Followable tracked node) :=
  decidable_of_iff
    ((∀ inner ∈ node.nodes, inner.form.isNamedExpr = false) ∧
      (∀ loop ∈ node.nodes, loop.form.isLoop = true →
        (loop.field .orelse).isEmpty = true ∨
          ∀ statement ∈ loop.field .body, statement.jumps .broken = false) ∧
      ∀ pattern ∈ node.nodes, Slot.isPattern pattern.form = true →
        ∀ value ∈ pattern.children, Slot.isExpression value.form = true →
          ∀ name ∈ value.nodes, name.identifier?.isSome = true →
            ∀ symbol ∈ tracked, model.resolve name ≠ some symbol)
    (by
      simp only [List.isEmpty_iff]
      exact ⟨fun ⟨plain, loops, patterns⟩ => ⟨plain, loops, patterns⟩,
        fun ⟨plain, loops, patterns⟩ => ⟨plain, loops, patterns⟩⟩)

/-- A value of a symbol can be there when a region starts. -/
inductive Model.Arrives (model : Model) (first : Node) (run : List Node)
    (symbol : Symbol) : Prop where
  /-- The symbol is a parameter of a function. -/
  | passed : symbol.kind = .parameter ∨ symbol.kind = .receiver → Arrives model first run symbol
  /-- The symbol belongs to a function further out. -/
  | enclosing :
      (∀ own, model.ownFrame? (model.scopeOf first) = some own → symbol.scopeId ≠ own.id) →
      Arrives model first run symbol
  /-- The symbol is bound outside of the region and before it. -/
  | earlier {binding : Binding} : binding ∈ model.bindingsOf symbol →
      binding.node.id ∉ regionIds run → binding.start < first.start →
      Arrives model first run symbol
  /-- The symbol is bound in a loop around the region. -/
  | looped {loop : Node} {binding : Binding} : loop ∈ model.tree.nodes → loop.form.isLoop = true →
      loop.Around first → binding ∈ model.bindingsOf symbol → binding.node.id ∈ loop.ids →
      Arrives model first run symbol

theorem Paths.inOrder_singleton {part : Paths} {trace : List Action} {completion : Completion}
    (path : part trace completion) : Paths.inOrder [part] trace completion := by
  by_cases normal : completion = .normal
  · subst normal
    have whole := Paths.andThen.goesOn path (show Paths.done [] .normal from ⟨rfl, rfl⟩)
    rwa [List.append_nil] at whole
  · exact .stops path normal

private theorem Frame.evaluates_name {frame : Frame} {info : Info} {id : String} {context : Context}
    {trace : List Action}
    (touched : frame.touches (.mk (.name id context) info []) context trace .normal) :
    Paths.inOrder [frame.evaluates (.mk (.name id context) info [])] trace .normal := by
  apply Paths.inOrder_singleton
  have evaluated : frame.evaluates (.mk (.name id context) info []) (trace ++ []) .normal :=
    .goesOn touched (Or.inl ⟨rfl, rfl⟩)
  rwa [List.append_nil] at evaluated

theorem Frame.evaluates_load {frame : Frame} {info : Info} {id : String} {symbol : Symbol}
    (found : frame.occurrence (.mk (.name id .load) info []) = some symbol) :
    Paths.inOrder [frame.evaluates (.mk (.name id .load) info [])] [.reads symbol] .normal := by
  apply Frame.evaluates_name
  unfold Frame.touches
  simp only [found]
  exact ⟨rfl, rfl⟩

theorem Frame.evaluates_store {frame : Frame} {info : Info} {id : String} {symbol : Symbol}
    (found : frame.occurrence (.mk (.name id .store) info []) = some symbol) :
    Paths.inOrder [frame.evaluates (.mk (.name id .store) info [])] [.writes symbol] .normal := by
  apply Frame.evaluates_name
  unfold Frame.touches
  simp only [found]
  exact ⟨rfl, rfl⟩

namespace Model

theorem Arrives.reachesRegion {model : Model} {first : Node} {run : List Node} {symbol : Symbol}
    (distinct : model.tree.Distinct) (arrives : model.Arrives first run symbol) :
    model.reachesRegion (model.scopeOf first) first (regionIds run) symbol = true := by
  unfold Model.reachesRegion
  split
  · next own =>
      unfold isOwnLocal at own
      simp only [Bool.and_eq_true, bne_iff_ne] at own
      obtain ⟨⟨notParameter, notReceiver⟩, inFrame⟩ := own
      rw [Bool.or_eq_true, List.any_eq_true, List.any_eq_true]
      cases arrives with
      | passed kind =>
          rcases kind with kind | kind
          · exact absurd kind notParameter
          · exact absurd kind notReceiver
      | enclosing further =>
          cases found : model.ownFrame? (model.scopeOf first) with
          | none =>
              rw [found] at inFrame
              cases inFrame
          | some frame =>
              rw [found] at inFrame
              exact absurd (of_decide_eq_true inFrame) (further frame found)
      | @earlier binding bound outside before =>
          left
          exact ⟨binding, bound, by simp [outside, before]⟩
      | @looped loop binding inside isLoop around bound within =>
          right
          have passable : loop.form.isBarrier = false := by
            generalize loop.form = form at isLoop
            cases form with
            | forLoop isAsync => rfl
            | whileLoop => rfl
            | _ => cases isLoop
          refine ⟨loop, List.mem_filter.mpr
            ⟨around.mem_ancestors distinct inside passable, isLoop⟩, ?_⟩
          obtain ⟨node, isNode, same⟩ := List.mem_map.mp within
          have walked : binding.node.id ∈ loop.walk.map Node.id :=
            List.mem_map.mpr ⟨node, Node.mem_walk.mpr isNode, same⟩
          exact List.any_eq_true.mpr ⟨binding, bound, by simpa using walked⟩
  · rfl

section

variable {path : String} {tree : Node} {model : Model} (settles : model.Settles path tree)
  (wellFormed : tree.WellFormed)

include settles wellFormed

theorem Followable.steady {first node : Node} {symbol : Symbol} (member : first ∈ tree.nodes)
    (block : first.form.isBlock = true)
    (tracked : symbol ∈ model.trackedSymbols (model.scopeOf first)) (inside : node ∈ tree.nodes)
    (followable : model.Followable (model.trackedSymbols (model.scopeOf first)) node) :
    (Frame.ofModel model (model.trackedSymbols (model.scopeOf first))).Steady symbol node where
  quiet := by
    apply quiet_of_tracked settles wellFormed member block tracked inside
    intro inner isInner form
    have plain := followable.plain inner isInner
    rw [form] at plain
    cases plain
  loops := followable.loops
  patterns := by
    intro pattern isPattern form value isValue expression inner isInner id context named occurs
    obtain ⟨resolved, _⟩ := Option.filter_eq_some_iff.mp occurs
    have named : inner.identifier?.isSome = true := by
      rw [Node.identifier?, named]
      rfl
    exact absurd resolved (followable.patterns pattern isPattern form value isValue expression
      inner isInner named symbol tracked)

end

/-- The data flow of a region does not fail for a region that starts with a statement. -/
theorem regionFlow?_of_fits {model : Model} {first : Node} {rest : List Node}
    (fitting : first.fits .statement = true) :
    model.regionFlow? (first :: rest) = .ok (model.flowOf first rest) := by
  have placed := Node.span_isSome_of_fits fitting
  simp [regionFlow?, Option.isSome_iff_ne_none.mp placed]

/-- Live-in is sound: a followed symbol that some path through a region reads before writing it is
live into the region if a value of it can arrive there. -/
theorem liveIn_of_path {path : String} {tree : Node} {model : Model} (wellFormed : tree.WellFormed)
    (built : build path tree = .ok model) {parent first : Node} {role : Role} {rest : List Node}
    (siblings : tree.Siblings parent role (first :: rest)) {symbol : Symbol}
    (tracked : symbol ∈ model.trackedSymbols (model.scopeOf first))
    (followable : ∀ statement ∈ first :: rest,
      model.Followable (model.trackedSymbols (model.scopeOf first)) statement)
    {trace part : List Action} {completion : Completion}
    (runs : (Frame.ofModel model (model.trackedSymbols (model.scopeOf first))).runs (first :: rest)
      trace completion)
    (unfinished : part <+: trace) (reads : Exposes symbol part)
    (arrives : model.Arrives first (first :: rest) symbol) :
    ∃ flow, model.regionFlow? (first :: rest) = .ok flow ∧ symbol ∈ flow.liveIn := by
  have settles := settles_of_build built
  have fitting : ∀ statement ∈ first :: rest, statement.fits .statement = true :=
    fun statement member => siblings.fits wellFormed member
  have firstFits := fitting first List.mem_cons_self
  have steady : ∀ statement ∈ first :: rest,
      (Frame.ofModel model (model.trackedSymbols (model.scopeOf first))).Steady symbol statement :=
    fun statement member => Followable.steady settles wellFormed
      (siblings.mem List.mem_cons_self) (Node.isBlock_of_fits firstFits) tracked
      (siblings.mem member) (followable statement member)
  have exposes : Exposes symbol trace := by
    obtain ⟨later, rfl⟩ := unfinished
    exact reads.append_right
  have exposed := (Frame.visits_runs fitting steady).exposes runs exposes {} List.not_mem_nil
  refine ⟨model.flowOf first rest, regionFlow?_of_fits firstFits,
    List.mem_filter.mpr ⟨exposed, ?_⟩⟩
  apply arrives.reachesRegion
  rw [settles.source]
  exact wellFormed.distinct

/-- The statement `if flag: total = 1`. -/
def branch : Node :=
  .mk .ifStmt ⟨5, .body, some ⟨⟨2, 4⟩, ⟨3, 17⟩⟩⟩ [
    .mk (.name "flag" .load) ⟨6, .test, some ⟨⟨2, 7⟩, ⟨2, 11⟩⟩⟩ [],
    .mk .assign ⟨7, .body, some ⟨⟨3, 8⟩, ⟨3, 17⟩⟩⟩ [
      .mk (.name "total" .store) ⟨8, .target, some ⟨⟨3, 8⟩, ⟨3, 13⟩⟩⟩ [],
      .mk (.constant .int "1") ⟨9, .value, some ⟨⟨3, 16⟩, ⟨3, 17⟩⟩⟩ []]]

def answer : Node :=
  .mk .returnStmt ⟨10, .body, some ⟨⟨4, 4⟩, ⟨4, 16⟩⟩⟩ [
    .mk (.name "total" .load) ⟨11, .value, some ⟨⟨4, 11⟩, ⟨4, 16⟩⟩⟩ []]

/-- A function that assigns its second parameter on one branch only. -/
def branching : Node :=
  .mk (.functionDef false "f" none) ⟨1, .body, some ⟨⟨1, 0⟩, ⟨4, 16⟩⟩⟩ [
    .mk (.parameters []) ⟨2, .parameters, none⟩ [
      .mk (.parameter "flag" none) ⟨3, .positional, some ⟨⟨1, 6⟩, ⟨1, 10⟩⟩⟩ [],
      .mk (.parameter "total" none) ⟨4, .positional, some ⟨⟨1, 12⟩, ⟨1, 17⟩⟩⟩ []],
    branch, answer]

def branchModule : Node :=
  .mk .module ⟨0, .root, none⟩ [branching]

private theorem runs_branch {frame : Frame} {flag total : Symbol}
    (test : frame.occurrence
      (.mk (.name "flag" .load) ⟨6, .test, some ⟨⟨2, 7⟩, ⟨2, 11⟩⟩⟩ []) = some flag)
    (value : frame.occurrence
      (.mk (.name "total" .load) ⟨11, .value, some ⟨⟨4, 11⟩, ⟨4, 16⟩⟩⟩ []) = some total) :
    frame.runs [branch, answer]
      [.begins 5, .reads flag, .ends 5, .begins 10, .reads total] .returned := by
  have marks (action : Action) : Paths.act action [action] .normal := ⟨rfl, rfl⟩
  have nothing : Paths.either (frame.executesRole .body branch.children)
      (frame.executesRole .orelse branch.children) [] .normal := Or.inr ⟨rfl, rfl⟩
  have leaves : Paths.stop .returned [] .returned := ⟨rfl, rfl⟩
  have skipped : frame.executes branch [.begins 5, .reads flag, .ends 5] .normal := by
    have chosen := Paths.andThen.goesOn (Frame.evaluates_load test) nothing
    exact .goesOn (marks (.begins 5)) (.goesOn chosen (marks (.ends 5)))
  have returned : frame.executes answer [.begins 10, .reads total] .returned := by
    have given := Paths.andThen.goesOn (Frame.evaluates_load value) leaves
    exact .goesOn (marks (.begins 10)) (.stops given nofun)
  exact .goesOn skipped (.stops returned nofun)

/-- The parameter is live into the body: the path that skips the assignment reads it. -/
theorem liveIn_of_path_branch :
    ∃ model, build "m.py" branchModule = .ok model ∧
      ∃ flow, model.regionFlow? [branch, answer] = .ok flow ∧
        ∃ symbol ∈ flow.liveIn, symbol.name = "total" := by
  have checked : (build "m.py" branchModule).toOption.any (fun model =>
      let frame := Frame.ofModel model (model.trackedSymbols (model.scopeOf branch))
      decide (∀ statement ∈ [branch, answer],
        model.Followable (model.trackedSymbols (model.scopeOf branch)) statement) &&
      (frame.occurrence
        (.mk (.name "flag" .load) ⟨6, .test, some ⟨⟨2, 7⟩, ⟨2, 11⟩⟩⟩ [])).isSome &&
      (frame.occurrence
        (.mk (.name "total" .load) ⟨11, .value, some ⟨⟨4, 11⟩, ⟨4, 16⟩⟩⟩ [])).any
          fun symbol => symbol.kind = .parameter && symbol.name = "total") = true := by cbv
  obtain ⟨model, built, known⟩ := exists_of_check checked
  simp only [Bool.and_eq_true, decide_eq_true_eq, Option.isSome_iff_exists,
    Option.any_eq_true] at known
  obtain ⟨⟨followable, flag, test⟩, total, value, kind, name⟩ := known
  have siblings : branchModule.Siblings branching .body [branch, answer] :=
    ⟨Node.child_mem_nodes List.mem_cons_self, rfl, List.infix_rfl⟩
  have exposes : Exposes total [.begins 5, .reads flag, .ends 5, .begins 10, .reads total] :=
    ⟨[.begins 5, .reads flag, .ends 5, .begins 10], [], rfl, by simp⟩
  have tracked := of_decide_eq_true (Option.filter_eq_some_iff.mp value).2
  obtain ⟨flow, ok, live⟩ := liveIn_of_path ⟨by decide, by decide⟩ built siblings tracked followable
    (runs_branch test value) (List.prefix_refl _) exposes (.passed (Or.inl kind))
  exact ⟨model, built, flow, ok, total, live, name⟩

end Model

end SafeRefactor
