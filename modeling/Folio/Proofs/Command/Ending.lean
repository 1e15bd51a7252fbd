import Folio.Command.Run
import Folio.Proofs.Disk.Find

/-!
# How a command ends

A command that does not go on to watch ends as the report of its build says
(`Command.ending`) : with a failure if an entry failed, a warning is denied, or a check finds
an artifact that is not on the disk (`Command.Fails`), and well if not
(`Command.code_ending`).
-/

namespace Folio

namespace Command

/-- How a command ends that does not go on to watch. -/
def ending (r : Report) : Command → Ending
  | .build _ _ denyWarnings =>
    if (buildFault? denyWarnings r).isNone then .success else .failure
  | .check _ => if r.changed.isEmpty && r.isOk then .success else .failure
  | _ => .success

/-- Whether a command counts as failed after a report. -/
def Fails (r : Report) : Command → Prop
  | .build _ _ denyWarnings =>
    r.failures ≠ [] ∨ denyWarnings ∧ ∃ a ∈ r.artifacts, a.warnings ≠ []
  | .check _ => r.failures ≠ [] ∨ ∃ a ∈ r.artifacts, a.isChanged
  | _ => False

variable {s : Site} {d : Disk} {r : Report} {style : MessageStyle}

theorem isOk_iff : r.isOk ↔ r.failures = [] :=
  List.isEmpty_iff

theorem buildFault?_isNone_iff {deny : Bool} : (buildFault? deny r).isNone ↔
    ¬(r.failures ≠ [] ∨ deny ∧ ∃ a ∈ r.artifacts, a.warnings ≠ []) := by
  have hwarnings : r.warnings.isEmpty ↔ ¬∃ a ∈ r.artifacts, a.warnings ≠ [] := by
    rw [List.isEmpty_iff, Report.warnings, List.flatMap_eq_nil_iff]
    simp only [not_exists, not_and, ne_eq, Classical.not_not]
  rw [not_or, not_and, ← hwarnings, ne_eq, Classical.not_not, ← isOk_iff]
  unfold buildFault?
  cases r.isOk <;> cases deny <;> cases r.warnings.isEmpty <;> simp

theorem changed_isEmpty_and_isOk_iff : (r.changed.isEmpty && r.isOk) = true ↔
    ¬(r.failures ≠ [] ∨ ∃ a ∈ r.artifacts, a.isChanged) := by
  have hchanged : r.changed.isEmpty ↔ ¬∃ a ∈ r.artifacts, a.isChanged := by
    rw [List.isEmpty_iff, Report.changed, List.filter_eq_nil_iff]
    simp only [not_exists, not_and]
  rw [Bool.and_eq_true, not_or, ← hchanged, ne_eq, Classical.not_not, isOk_iff, and_comm]

theorem code_success_or_failure {p q : Prop} [Decidable p] (h : p ↔ ¬q) :
    ((if p then Ending.success else .failure).code? = some 1 ↔ q) ∧
      ((if p then Ending.success else .failure).code? = some 0 ↔ ¬q) := by
  by_cases hp : p
  · rw [if_pos hp]
    exact ⟨iff_of_false nofun (h.1 hp), iff_of_true rfl (h.1 hp)⟩
  · rw [if_neg hp]
    have hq : q := Classical.byContradiction fun hq => hp (h.2 hq)
    exact ⟨iff_of_true rfl hq, iff_of_false nofun fun h => h hq⟩

/-- A command that counts as failed ends with the code 1, and any other one with 0. -/
theorem code_ending (c : Command) (r : Report) : ((c.ending r).code? = some 1 ↔ c.Fails r) ∧
    ((c.ending r).code? = some 0 ↔ ¬c.Fails r) := by
  cases c with
  | build dryRun goOn deny => exact code_success_or_failure buildFault?_isNone_iff
  | check diff => exact code_success_or_failure changed_isEmpty_and_isOk_iff
  | _ => exact ⟨iff_of_false nofun id, iff_of_true rfl id⟩

theorem buildSite_ending {tag : Text} {verbose dryRun deny : Bool} (goOn : Bool) :
    (buildSite style tag verbose dryRun deny s d).ending =
      (Command.build dryRun goOn deny).ending
        (s.build (if dryRun then .dryRun else .write tag) d).2 :=
  rfl

theorem checkSite_eq {diff : Bool} :
    (checkSite style diff s d).disk = (s.build .dryRun d).1 ∧
      (checkSite style diff s d).ending = (Command.check diff).ending (s.build .dryRun d).2 := by
  rw [checkSite, ending]
  dsimp only
  split <;> exact ⟨rfl, rfl⟩

end Command

namespace CommandLine

variable {line : CommandLine} {around : Surroundings} {d : Disk} {c : Command}

/-- A command runs on the site of its root. -/
theorem run_of_load {s : Site} (hcommand : line.command = some c)
    (hload : Site.load d (line.projectRoot d) = .ok s) : line.run around d =
      Command.runOn (line.style around d) around.tag line.verbose s d c := by
  have hroot : (line.style around d).root = line.projectRoot d := rfl
  rw [run, hcommand]
  dsimp only
  rw [Command.run, hroot, hload]

/-- A site that is not loaded is neither built nor checked. -/
theorem run_of_load_eq_error (line : CommandLine) (around : Surroundings) (d : Disk)
    {c : Command} {reason : SiteError} (hcommand : line.command = some c)
    (hload : Site.load d (line.projectRoot d) = .error reason) :
    (line.run around d).ending.code? = some 2 ∧ (line.run around d).disk = d := by
  have hroot : (line.style around d).root = line.projectRoot d := rfl
  rw [run, hcommand]
  dsimp only
  rw [Command.run, hroot, hload]
  exact ⟨rfl, rfl⟩

end CommandLine

end Folio
