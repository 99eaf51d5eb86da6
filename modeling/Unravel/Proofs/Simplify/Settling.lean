import Unravel.Proofs.Simplify.DeclaratorWeight
import Unravel.Proofs.Simplify.FlatLoop
import Unravel.Proofs.Simplify.FoldingWeight
import Unravel.Proofs.Simplify.Orderly
import Unravel.Proofs.Simplify.ProxyWeight
import Unravel.Proofs.Simplify.StatementWeight

/-!
Rules that leave names as they are, and rules that settle. After a rule that takes no declaration
away which something still means, identifiers belong to the bindings that they belonged to
(`Rule.shown_bindingOf?_of_run`). A rule that makes every program lighter that it changes, in some
way to weigh programs, reports no change after finitely many runs (`Rule.Settles.of_lightens`). The
rules that reduce programs settle on every well-formed program (`Rule.settles_of_reduces`).
-/

namespace Unravel

/-! ### Names stay -/

namespace Program

variable {o p q : Program} {id : NodeId}

theorem Sound.shown_bindingOf? (sound : p.Sound) (id : NodeId) : p.scopes.shown (p.bindingOf? id) =
    (p.lexicon.meaning? id).map fun d => (d.identifier, d.kind, d.declaration) := by
  rw [sound.bindingOf?_eq]
  cases means : p.lexicon.meaning? id with
  | none => rfl
  | some d => exact sound.describes.shown_find? (Lexicon.meaning?_some means)

theorem Spares.shown_bindingOf? (spares : o.Spares p q) (sound : p.Sound) (after : q.Sound)
    (before : o.isAttached id = true) (attached : q.isAttached id = true) :
    q.scopes.shown (q.bindingOf? id) = p.scopes.shown (p.bindingOf? id) := by
  rw [sound.shown_bindingOf?, after.shown_bindingOf?, (spares id before attached).2]

end Program

namespace Rule

variable {p : Program}

/--
An identifier that a rule leaves in the program is declared where it was before, or nowhere as
before. -/
theorem shown_bindingOf?_of_run (rule : Rule) (keepsNames : rule.keepsNames = true)
    (reached : p.Reached) (verified : p.verify = .ok ()) (wellBound : p.tree.WellBound)
    (sorted : p.tree.Sorted fun id => p.isAttached id = true) {c : Context} {changed : Bool}
    {w : Workspace} (ran : rule.run ⟨p, c⟩ = .ok changed w) {id : NodeId}
    (before : p.isAttached id = true) (attached : w.program.isAttached id = true) :
    w.program.scopes.shown (w.program.bindingOf? id) = p.scopes.shown (p.bindingOf? id) := by
  have steady : p.Steady := ⟨reached.sound verified, wellBound⟩
  have result := rule.orderly (.names (.start steady.sound sorted) steady) (fun _ => keepsNames) c
  rw [ran] at result
  have orderly := result.1
  exact (orderly.spares rfl).shown_bindingOf? steady.sound (orderly.steady rfl).1.sound
    before attached

/-- The tree of `let f; f["call"](f);`. -/
def quotedCall : Tree :=
  ⟨#[⟨.identifier "f", some ⟨1⟩⟩, ⟨.variableDeclarator ⟨0⟩ none, some ⟨2⟩⟩,
    ⟨.variableDeclaration .let_ [⟨1⟩], some ⟨9⟩⟩, ⟨.identifier "f", some ⟨5⟩⟩,
    ⟨.literal (.string "call" none), some ⟨5⟩⟩, ⟨.member ⟨3⟩ ⟨4⟩ true, some ⟨7⟩⟩,
    ⟨.identifier "f", some ⟨7⟩⟩, ⟨.call ⟨5⟩ [⟨6⟩], some ⟨8⟩⟩, ⟨.expressionStatement ⟨7⟩, some ⟨9⟩⟩,
    ⟨.program [⟨2⟩, ⟨8⟩], none⟩]⟩

theorem exists_shown_bindingOf?_of_run : ∃ p changed w, Program.ofTree quotedCall ⟨9⟩ = .ok p ∧
    run .computedCall ⟨p, default⟩ = .ok changed w ∧
      ∀ id, p.isAttached id = true → w.program.isAttached id = true →
        w.program.scopes.shown (w.program.bindingOf? id) = p.scopes.shown (p.bindingOf? id) := by
  have linked : quotedCall.Linked := Tree.linked_of_checks (by decide)
  have isTop : quotedCall.IsTop ⟨9⟩ := ⟨by decide, by decide⟩
  obtain ⟨scopes, made, steady⟩ := Program.exists_steady quotedCall ⟨9⟩ linked isTop
    (Tree.wellBound_of_bindsWell (by decide)) rfl
  have sorted := steady.sound.rooted.sorted_of_isSorted (show quotedCall.isSorted = true by decide)
  have result := DottedCall.lightens steady default
  cases ran : run .computedCall ⟨⟨quotedCall, ⟨9⟩, scopes, false⟩, default⟩ with
  | ok changed w =>
    exact ⟨_, changed, w, made, ran,
      fun id before attached => shown_bindingOf?_of_run .computedCall rfl (.made linked isTop made)
        steady.sound.verify steady.wellBound sorted ran before attached⟩
  | error e w =>
    change DottedCall.run _ = _ at ran
    rw [ran] at result
    exact result.2.elim

end Rule

/-! ### Runs come to an end -/

namespace Rule

/-- A rule that is run again and again on what it has made, each time in a fresh context, does not
fail and reports no change in the end. -/
inductive Settles (rule : Rule) : Program → Prop where
  | quiet {p : Program} {w : Workspace} (ran : rule.run ⟨p, default⟩ = .ok false w) : Settles rule p
  | again {p : Program} {w : Workspace} (ran : rule.run ⟨p, default⟩ = .ok true w)
      (further : Settles rule w.program) : Settles rule p

variable {rule : Rule} {p : Program}

theorem Settles.of_lightens {M : Type} [AddCommMonoid M] [LinearOrder M] [WellFoundedLT M]
    (W : Weighing M) (kept : Program → Prop) (each : ∀ q : Program, q.Steady → kept q →
      SimplifyM.Surely q rule.run fun changed r => kept r ∧ q.Lightens W changed r)
    (steady : p.Steady) (holds : kept p) : rule.Settles p := by
  generalize isWeight : p.weight W = weight
  induction weight using WellFoundedLT.induction generalizing p with
  | ind weight induction =>
    obtain ⟨changed, w, ran, after, -, holdsAfter, lightens⟩ :=
      (each p steady holds).exists_ok default
    cases changed with
    | false => exact .quiet ran
    | true => exact .again ran (induction _ (isWeight ▸ lightens.lt rfl) after holdsAfter rfl)

/-- The rules that reduce a program in some way or other. -/
def reduces : Rule → Bool
  | switchUnflattening | computedCall | branchPruning | constantFolding | constInlining |
    arrayIndexInlining
    | binaryProxy | marshalUnwrap .. | objectReconstruction | classReconstruction => true
  | _ => false

/-- The rules that reduce programs settle on all that are well-formed. -/
theorem settles_of_reduces (rule : Rule) (reduces : rule.reduces = true) (reached : p.Reached)
    (verified : p.verify = .ok ()) (wellBound : p.tree.WellBound)
    (housed : p.tree.HousesProperties) :
    rule.Settles p := by
  have steady : p.Steady := ⟨reached.sound verified, wellBound⟩
  cases rule with
  | switchUnflattening =>
    exact .of_lightens FlatLoop.loopDepths (fun _ => True)
      (fun _ steady _ => FlatLoop.lightens steady) steady trivial
  | computedCall =>
    exact .of_lightens DottedCall.computedMembers (fun _ => True)
      (fun _ steady _ => DottedCall.lightens steady) steady trivial
  | branchPruning =>
    exact .of_lightens allNodes (fun _ => True) (fun _ steady _ => Branch.lightens steady)
      steady trivial
  | constantFolding =>
    exact .of_lightens Folding.foldables (fun _ => True) (fun _ steady _ => Folding.lightens steady)
      steady trivial
  | constInlining =>
    exact .of_lightens allDeclarators (fun _ => True)
      (fun _ steady _ => ConstantUse.lightens steady) steady trivial
  | arrayIndexInlining =>
    exact .of_lightens ArrayRead.members (fun _ => True)
      (fun _ steady _ => ArrayRead.lightens steady) steady trivial
  | binaryProxy =>
    exact .of_lightens allNodes (fun q => q.tree.HousesProperties)
      (fun _ steady housed => Proxy.lightens steady housed) steady housed
  | marshalUnwrap function mode =>
    exact .of_lightens allDeclarators (fun _ => True)
      (fun _ steady _ => Marshal.lightens function mode steady) steady trivial
  | objectReconstruction =>
    exact .of_lightens ObjectLiteral.expressionStatements (fun _ => True)
      (fun _ steady _ => ObjectLiteral.lightens steady) steady trivial
  | classReconstruction =>
    exact .of_lightens ClassForm.functionDeclarations (fun _ => True)
      (fun _ steady _ => ClassForm.lightens steady) steady trivial
  | _ => cases reduces

theorem exists_settles_of_reduces :
    ∃ p, Program.ofTree quotedCall ⟨9⟩ = .ok p ∧ p.tree = quotedCall ∧
      ∀ rule : Rule, rule.reduces = true → rule.Settles p := by
  have linked : quotedCall.Linked := Tree.linked_of_checks (by decide)
  have isTop : quotedCall.IsTop ⟨9⟩ := ⟨by decide, by decide⟩
  obtain ⟨scopes, made, steady⟩ := Program.exists_steady quotedCall ⟨9⟩ linked isTop
    (Tree.wellBound_of_bindsWell (by decide)) rfl
  have housed : quotedCall.HousesProperties := Tree.housesProperties_of_housesWell (by decide)
  exact ⟨_, made, rfl, fun rule reduces => settles_of_reduces rule reduces (.made linked isTop made)
    steady.sound.verify steady.wellBound housed⟩

end Rule

end Unravel
