import SafeRefactor.Proofs.AlwaysAssigned
import SafeRefactor.Proofs.TwoRuns

/-!
# Larger assigned sets

Code followed from a larger assigned set records the same reads and the same writes, and
whether a symbol is assigned at its end depends on that symbol alone.  A symbol that is
assigned from the smaller set is assigned from the larger one as well, and it is exposed
from the larger set only if it is from the smaller one, unless a `try` forgets it: the
protected code deletes the symbol and the `finally` assigns it again.
-/

namespace SafeRefactor

/-- Whether one symbol is assigned depends only on whether it was. -/
theorem Coupled.agree (symbol : Symbol) :
    Coupled (fun smaller larger => symbol ∈ smaller ↔ symbol ∈ larger)
      (fun lower upper => symbol ∈ lower.assigned ↔ symbol ∈ upper.assigned) where
  assigned related := related
  within _ sets := sets
  read _ related := related
  write other related := by rw [Track.mem_assigned_write, Track.mem_assigned_write, related]
  unassign other related := by
    rw [Track.mem_assigned_unassign, Track.mem_assigned_unassign, related]
  inter first second := by rw [SymbolSet.mem_inter, SymbolSet.mem_inter, first, second]

/-- What is read and what is written does not depend on what is assigned. -/
theorem Coupled.records :
    Coupled (fun _ _ => True)
      (fun lower upper => lower.reads = upper.reads ∧ lower.writes = upper.writes) where
  assigned _ := trivial
  within related _ := related
  read symbol related := ⟨congrArg (SymbolSet.insert symbol) related.1, related.2⟩
  write symbol related := ⟨related.1, congrArg (SymbolSet.insert symbol) related.2⟩
  unassign _ related := related
  inter _ _ := trivial

/-- The symbol is assigned in the upper track if it is in the lower one, and it was exposed in the
lower track if it was in the upper one. -/
structure Track.Below (symbol : Symbol) (lower upper : Track) : Prop where
  assigned : symbol ∈ lower.assigned → symbol ∈ upper.assigned
  exposed : symbol ∈ upper.exposed → symbol ∈ lower.exposed

private theorem Track.mem_exposed_read {symbol other : Symbol} {track : Track} :
    symbol ∈ (track.read other).exposed ↔
      symbol ∈ track.exposed ∨ (symbol = other ∧ symbol ∉ track.assigned) := by
  unfold read
  simp only
  split
  · next assigned =>
      constructor
      · exact Or.inl
      · rintro (member | ⟨rfl, unassigned⟩)
        · exact member
        · exact absurd assigned unassigned
  · next unassigned =>
      rw [SymbolSet.mem_insert]
      constructor
      · rintro (rfl | member)
        · exact Or.inr ⟨rfl, unassigned⟩
        · exact Or.inl member
      · rintro (member | ⟨same, _⟩)
        · exact Or.inr member
        · exact Or.inl same

theorem Coupled.below (symbol : Symbol) :
    Coupled (fun smaller larger => symbol ∈ smaller → symbol ∈ larger) (Track.Below symbol) where
  assigned related := related.assigned
  within related sets := ⟨sets, related.exposed⟩
  read other related := by
    refine ⟨related.assigned, fun member => Track.mem_exposed_read.mpr ?_⟩
    rcases Track.mem_exposed_read.mp member with member | ⟨same, unassigned⟩
    · exact Or.inl (related.exposed member)
    · exact Or.inr ⟨same, fun assigned => unassigned (related.assigned assigned)⟩
  write other related := by
    refine ⟨fun member => Track.mem_assigned_write.mpr ?_, related.exposed⟩
    exact (Track.mem_assigned_write.mp member).imp_right related.assigned
  unassign other related := by
    refine ⟨fun member => Track.mem_assigned_unassign.mpr ?_, related.exposed⟩
    exact (Track.mem_assigned_unassign.mp member).imp_left related.assigned
  inter first second member := by
    obtain ⟨left, right⟩ := SymbolSet.mem_inter.mp member
    exact SymbolSet.mem_inter.mpr ⟨first left, second right⟩

namespace Frame

variable {frame : Frame} {symbol : Symbol} {node : Node}

/-- A `try` forgets a symbol: what it protects ends without the symbol although it starts with it,
and the `finally` assigns the symbol.  What a `finally` adds is told by the set from before the
`try`, in which the symbol is. -/
structure Forgets (frame : Frame) (symbol : Symbol) (node : Node) : Prop where
  isTry : node.form.isTry = true
  loses : symbol ∉
    (({ assigned := [symbol] } : Track).protect frame node.children).track.assigned
  adds : symbol ∈ (({} : Track).executeRole frame .finalbody node.children).track.assigned

instance : Decidable (frame.Forgets symbol node) :=
  decidable_of_iff
    (node.form.isTry = true ∧
      symbol ∉ (({ assigned := [symbol] } : Track).protect frame node.children).track.assigned ∧
      symbol ∈ (({} : Track).executeRole frame .finalbody node.children).track.assigned)
    ⟨fun ⟨isTry, loses, adds⟩ => ⟨isTry, loses, adds⟩,
      fun ⟨isTry, loses, adds⟩ => ⟨isTry, loses, adds⟩⟩

private theorem mem_settle {children : List Node} {track : Track} :
    symbol ∈ track.settle frame children ↔
      symbol ∈ (track.protect frame children).track.assigned ∨
        (symbol ∈ (track.conclude frame children).track.assigned ∧ symbol ∉ track.assigned) := by
  rw [Track.settle, SymbolSet.mem_union, SymbolSet.mem_diff]

theorem merges_agree (node : Node) :
    frame.Merges (fun smaller larger => symbol ∈ smaller ↔ symbol ∈ larger)
      (fun lower upper => symbol ∈ lower.assigned ↔ symbol ∈ upper.assigned) node := by
  intro _ lower upper related joined final
  rw [mem_settle, mem_settle, joined, final, related]

theorem merges_records (node : Node) :
    frame.Merges (fun _ _ => True)
      (fun lower upper => lower.reads = upper.reads ∧ lower.writes = upper.writes) node :=
  fun _ _ _ _ _ _ => trivial

theorem executeRole_agree {role : Role} {items : List Node} {one other : Track}
    (agree : symbol ∈ one.assigned ↔ symbol ∈ other.assigned) :
    symbol ∈ (one.executeRole frame role items).track.assigned ↔
      symbol ∈ (other.executeRole frame role items).track.assigned :=
  (Coupled.agree symbol).executeRole (fun _ _ _ inner _ => merges_agree inner) agree

theorem protect_agree {children : List Node} {one other : Track}
    (agree : symbol ∈ one.assigned ↔ symbol ∈ other.assigned) :
    symbol ∈ (one.protect frame children).track.assigned ↔
      symbol ∈ (other.protect frame children).track.assigned :=
  (Coupled.agree symbol).protect (fun _ => executeRole_agree)
    (fun _ _ _ _ _ => (Coupled.agree symbol).execute fun inner _ => merges_agree inner) agree

/-- After a `try` that does not forget it, a symbol is still assigned from the larger set. -/
theorem merges_below (keeps : ¬ frame.Forgets symbol node) :
    frame.Merges (fun smaller larger => symbol ∈ smaller → symbol ∈ larger) (Track.Below symbol)
      node := by
  intro isTry lower upper below joined final member
  rw [mem_settle] at member ⊢
  rcases member with member | ⟨member, unassigned⟩
  · exact Or.inl (joined member)
  · by_cases assigned : symbol ∈ upper.assigned
    · -- The `finally` adds the symbol to the smaller set only, so what is protected has to keep it.
      left
      by_contra lost
      apply keeps
      refine ⟨isTry, fun kept => lost ?_, ?_⟩
      · apply (protect_agree _).mp kept
        simp [assigned]
      · apply (executeRole_agree _).mp member
        simp [unassigned]
    · exact Or.inr ⟨final member, assigned⟩

/-- A `try` that forgets a symbol assigns it when it starts without it, and does not when it starts
with it. -/
theorem Forgets.reverses (forgets : frame.Forgets symbol node) :
    symbol ∈ (({} : Track).execute frame node).track.assigned ∧
      symbol ∉ (({ assigned := [symbol] } : Track).execute frame node).track.assigned := by
  obtain ⟨form, info, children⟩ := node
  obtain ⟨isTry, loses, adds⟩ := forgets
  obtain ⟨isGroup, rfl⟩ : ∃ isGroup, form = .tryStmt isGroup := by
    cases form with
    | tryStmt isGroup => exact ⟨isGroup, rfl⟩
    | _ => cases isTry
  have same (track : Track) :
      symbol ∈ ({} : Track).assigned ↔ symbol ∈ (track.within []).assigned :=
    Iff.rfl
  rw [Track.execute_try, Track.execute_try]
  constructor
  · apply mem_settle.mpr
    exact Or.inr ⟨(executeRole_agree (same _)).mp adds, List.not_mem_nil⟩
  · intro member
    rcases mem_settle.mp member with kept | ⟨_, unassigned⟩
    · exact loses kept
    · exact unassigned (List.mem_singleton_self symbol)

/-- Statements followed from a larger assigned set record the same reads and the same writes.  A
symbol that no `try` among them forgets is assigned at the end if it is when they start from the
smaller set, and it is exposed only if it is then.  A `try` that forgets a symbol reverses it. -/
theorem monotone_unless_forgotten (frame : Frame) (role : Role) (items : List Node) (track : Track)
    {smaller larger : SymbolSet} (subset : smaller ⊆ larger) :
    let lower := ((track.within smaller).executeRole frame role items).track
    let upper := ((track.within larger).executeRole frame role items).track
    (lower.reads = upper.reads ∧ lower.writes = upper.writes) ∧
      (∀ symbol,
        (∀ item ∈ items, item.role = role → ∀ node ∈ item.nodes, ¬ frame.Forgets symbol node) →
          (symbol ∈ lower.assigned → symbol ∈ upper.assigned) ∧
            (symbol ∈ upper.exposed → symbol ∈ lower.exposed)) ∧
      ∀ symbol node, frame.Forgets symbol node →
        symbol ∈ (({} : Track).execute frame node).track.assigned ∧
          symbol ∉ (({ assigned := [symbol] } : Track).execute frame node).track.assigned := by
  refine ⟨?_, ?_, fun _ _ forgets => forgets.reverses⟩
  · exact Coupled.records.executeRole (fun _ _ _ inner _ => merges_records inner) ⟨rfl, rfl⟩
  · intro symbol kept
    have starts : (track.within smaller).Below symbol (track.within larger) :=
      ⟨fun member => subset member, id⟩
    have ends := (Coupled.below symbol).executeRole
      (fun item isItem plays inner inside =>
        merges_below (kept item isItem plays inner inside)) starts
    exact ⟨ends.assigned, ends.exposed⟩

end Frame

/-- A `try` that assigns `x`, then takes a step, and whose `finally` assigns `x` again. -/
def restoring (step : Node) : Node :=
  .mk (.tryStmt false) ⟨7, .body, some ⟨⟨3, 4⟩, ⟨7, 13⟩⟩⟩ [
    .mk .assign ⟨8, .body, some ⟨⟨4, 8⟩, ⟨4, 13⟩⟩⟩ [
      .mk (.name "x" .store) ⟨9, .target, some ⟨⟨4, 8⟩, ⟨4, 9⟩⟩⟩ [],
      .mk (.constant .int "0") ⟨10, .value, some ⟨⟨4, 12⟩, ⟨4, 13⟩⟩⟩ []],
    step,
    .mk .assign ⟨13, .finalbody, some ⟨⟨7, 8⟩, ⟨7, 13⟩⟩⟩ [
      .mk (.name "x" .store) ⟨14, .target, some ⟨⟨7, 8⟩, ⟨7, 9⟩⟩⟩ [],
      .mk (.constant .int "1") ⟨15, .value, some ⟨⟨7, 12⟩, ⟨7, 13⟩⟩⟩ []]]

def resetting : Node :=
  .mk .assign ⟨4, .body, some ⟨⟨2, 4⟩, ⟨2, 9⟩⟩⟩ [
    .mk (.name "x" .store) ⟨5, .target, some ⟨⟨2, 4⟩, ⟨2, 5⟩⟩⟩ [],
    .mk (.constant .int "5") ⟨6, .value, some ⟨⟨2, 8⟩, ⟨2, 9⟩⟩⟩ []]

def showing : Node :=
  .mk .exprStmt ⟨16, .body, some ⟨⟨8, 4⟩, ⟨8, 12⟩⟩⟩ [
    .mk .call ⟨17, .value, some ⟨⟨8, 4⟩, ⟨8, 12⟩⟩⟩ [
      .mk (.name "print" .load) ⟨18, .callee, some ⟨⟨8, 4⟩, ⟨8, 9⟩⟩⟩ [],
      .mk (.name "x" .load) ⟨19, .argument, some ⟨⟨8, 10⟩, ⟨8, 11⟩⟩⟩ []]]

/-- A module with a function of a parameter `x` made of the three. -/
def restoringModule (step : Node) : Node :=
  .mk .module ⟨0, .root, none⟩ [
    .mk (.functionDef false "f" none) ⟨1, .body, some ⟨⟨1, 0⟩, ⟨8, 12⟩⟩⟩ [
      .mk (.parameters []) ⟨2, .parameters, none⟩ [
        .mk (.parameter "x" none) ⟨3, .positional, some ⟨⟨1, 6⟩, ⟨1, 7⟩⟩⟩ []],
      resetting,
      restoring step,
      showing]]

def keeping : Node :=
  .mk .exprStmt ⟨11, .body, some ⟨⟨5, 8⟩, ⟨5, 9⟩⟩⟩ [
    .mk (.name "x" .load) ⟨12, .value, some ⟨⟨5, 8⟩, ⟨5, 9⟩⟩⟩ []]

def deleting : Node :=
  .mk .deleteStmt ⟨11, .body, some ⟨⟨5, 8⟩, ⟨5, 13⟩⟩⟩ [
    .mk (.name "x" .del) ⟨12, .target, some ⟨⟨5, 12⟩, ⟨5, 13⟩⟩⟩ []]

namespace Model

/-- Where `x` is not deleted before the `finally` assigns it again, it stays assigned and is not
exposed, whatever the statements start from. -/
theorem monotone_unless_forgotten_keeping :
    ∃ model, build "m.py" (restoringModule keeping) = .ok model ∧ ∃ symbol,
      let frame := Frame.ofModel model (model.trackedSymbols (model.scopeOf showing))
      let after (assigned : SymbolSet) :=
        (({ assigned } : Track).executeRole frame .body [restoring keeping, showing]).track
      (symbol ∈ (after []).assigned ∧ symbol ∉ (after []).exposed) ∧
        symbol ∈ (after [symbol]).assigned ∧ symbol ∉ (after [symbol]).exposed := by
  have checked : (build "m.py" (restoringModule keeping)).toOption.any (fun model =>
      let frame := Frame.ofModel model (model.trackedSymbols (model.scopeOf showing))
      let track := (({} : Track).executeRole frame .body [restoring keeping, showing]).track
      track.assigned.any fun symbol => symbol ∉ track.exposed &&
        [restoring keeping, showing].all fun item =>
          item.nodes.all fun node => decide (¬ frame.Forgets symbol node)) = true := by cbv
  obtain ⟨model, built, known⟩ := exists_of_check checked
  simp only [List.any_eq_true, List.all_eq_true, Bool.and_eq_true, decide_eq_true_eq] at known
  obtain ⟨symbol, assigned, unexposed, kept⟩ := known
  refine ⟨model, built, symbol, ⟨assigned, unexposed⟩, ?_⟩
  have larger := (Frame.monotone_unless_forgotten
    (Frame.ofModel model (model.trackedSymbols (model.scopeOf showing))) .body
    [restoring keeping, showing] {} (List.nil_subset [symbol])).2.1 symbol
      (fun item isItem _ => kept item isItem)
  exact ⟨larger.1 assigned, fun exposed => unexposed (larger.2 exposed)⟩

/-- Where `x` is deleted before the `finally` assigns it again, it is assigned at the end of the
`try` when it was not at its beginning, and it is not when it was; the statement behind reads it
exposed then.  So an assignment before the `try` unassigns `x`, and makes it an input. -/
theorem larger_set_loses_symbol :
    ∃ model, build "m.py" (restoringModule deleting) = .ok model ∧ ∃ symbol,
      let frame := Frame.ofModel model (model.trackedSymbols (model.scopeOf resetting))
      let after (items : List Node) (assigned : SymbolSet) :=
        ({ assigned } : Track).executeRole frame .body items
      ((after [restoring deleting] []).falls = true ∧
        symbol ∈ (after [restoring deleting] []).track.assigned ∧
        symbol ∉ (after [restoring deleting] [symbol]).track.assigned) ∧
      (symbol ∉ (after [restoring deleting, showing] []).track.exposed ∧
        symbol ∈ (after [restoring deleting, showing] [symbol]).track.exposed) ∧
      ∃ flow, model.regionFlow? [resetting, restoring deleting, showing] = .ok flow ∧
        symbol ∈ flow.liveIn := by
  have checked : (build "m.py" (restoringModule deleting)).toOption.any (fun model =>
      let frame := Frame.ofModel model (model.trackedSymbols (model.scopeOf resetting))
      let after (items : List Node) (assigned : SymbolSet) :=
        ({ assigned } : Track).executeRole frame .body items
      (model.flowOf resetting [restoring deleting, showing]).liveIn.any fun symbol =>
        (after [restoring deleting] []).falls &&
        symbol ∈ (after [restoring deleting] []).track.assigned &&
        symbol ∉ (after [restoring deleting] [symbol]).track.assigned &&
        symbol ∉ (after [restoring deleting, showing] []).track.exposed &&
        symbol ∈ (after [restoring deleting, showing] [symbol]).track.exposed) = true := by cbv
  obtain ⟨model, built, known⟩ := exists_of_check checked
  simp only [List.any_eq_true, Bool.and_eq_true, decide_eq_true_eq] at known
  obtain ⟨symbol, live, ⟨⟨⟨falls, assigned⟩, lost⟩, hidden⟩, exposed⟩ := known
  exact ⟨model, built, symbol, ⟨falls, assigned, lost⟩, ⟨hidden, exposed⟩, _,
    regionFlow?_of_fits (by decide), live⟩

end Model

end SafeRefactor
