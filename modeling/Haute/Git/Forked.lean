import Haute.Data.Answers
import Haute.Git.Fork

/-!
# All or nothing

A fork either raises, and leaves every ref, HEAD and the record as they were, or succeeds
with the new branch and its ledger made and, for a move, every save after the fork point
carried over (`AllOrNothing`). Whether it does depends on where its commands stop (`stage`): what
the rollback leaves is known from HEAD and the refs (`rollbackFork_spec`), and what a move carries
over from the commits it read. `fork_all_or_nothing` puts the two together: a fork is all or nothing
exactly where it is `Forkable`.

A read that fails softly is not harmless: where `rev-list` fails, a move takes the old ledger back
to the fork point and carries nothing over (`fork_loses_saves`).
-/

namespace Haute.Git

open Haute.Data

variable {env : Env} {repo before after : Repo} {req : ForkRequest} {fork : Fork}

/-- Every ref, HEAD and the recorded working branch are as they were. -/
structure Unchanged (before after : Repo) : Prop where
  refs : ∀ name, after.refs.get? name = before.refs.get? name
  tags : after.tags = before.tags
  others : after.others = before.others
  head : after.head = before.head
  recorded : after.recorded = before.recorded

/-- What of a commit a relocated save keeps. -/
def Commit.content (c : Commit) : String × Details := (c.tree, c.details)

/-- The saves of `old` after `point` are on `new`, in their order and as they were, and the
tip holds the same files. -/
def Carries (point old new : Commit) : Prop :=
  new.tree = old.tree ∧ ∃ copies : List Commit, copies.Sublist new.history ∧
    copies.map Commit.content = (Commit.range point old).map Commit.content

/-- What a successful fork at `point` leaves: the new branch and its ledger, every other ref
as it was or, for a move, the saves carried over and the old ledger at the fork point. -/
structure Created (before after : Repo) (req : ForkRequest) (point : Commit) : Prop where
  branch : before.refs.get? req.name = none ∧ ∃ base, after.refs.get? req.name = some base
  ledger : before.refs.get? (ledgerName req.name) = none ∧
    ∃ tip, after.refs.get? (ledgerName req.name) = some tip
  others : ∀ name, name ∈ before.refs.keys → (req.move = true → name ≠ ledgerName before.recorded) →
    after.refs.get? name = before.refs.get? name
  moved : req.move = true → after.refs.get? (ledgerName before.recorded) = some point ∧
    ∀ old, before.refs.get? (ledgerName before.recorded) = some old →
      ∃ tip, after.refs.get? (ledgerName req.name) = some tip ∧ Carries point old tip

/-- A fork raises and changes nothing, or succeeds at its fork point. -/
def AllOrNothing (env : Env) (before : Repo) (req : ForkRequest)
    (result : Except GitError ForkResponse × Repo) : Prop :=
  match result with
  | (.error _, after) => Unchanged before after
  | (.ok _, after) => ∃ point, forkPoint env before req = some point ∧
    Created before after req point

/-- Where the commands of a fork stop: at making the branches, at opening the new ledger before HEAD
has moved, after it has, or nowhere. -/
inductive Stage where
  | name
  | ledger
  | checkout
  | away
  | done
  deriving DecidableEq

/-- Where the commands of a fork stop, by which of them fail and by the names that are taken. -/
def stage (env : Env) (repo : Repo) (req : ForkRequest) : Stage :=
  if env.fails .branchName = true ∨ req.name ∈ repo.refs.keys then .name
  else if env.fails .branchLedger = true ∨ ledgerName req.name ∈ repo.refs.keys then .ledger
  else if req.move = false ∧ req.switch = false then .done
  else if (env.beforeCheckout repo).isOk = false ∨ env.fails .checkout = true then .checkout
  else if env.fails .checkoutAfter = true ∨
      (req.move = true ∧ (env.fails .rewind = true ∨ req.name = repo.recorded)) ∨
      env.fails .record = true then .away
  else .done

/-- What of a commit a replay keeps. -/
def Commit.replayedContent (c : Commit) : String × Details :=
  (c.tree, { c.details with message := pyStrip c.details.message })

/-- The old ledger's tip as it is read: a read that finds nothing takes the branch's. -/
def readLedgerTip (env : Env) (repo : Repo) (workingTip : Commit) : Commit :=
  (env.read .ledgerRead repo (ledgerName repo.recorded)).getD workingTip

/-- The saves of `old` after the fork point are, in order and as they were, among the commits that a
move puts the new ledger together from, and the last of these has its files: the history of the
commit read as the ledger's tip or, at a pending save, what the new branch starts from and the saves
that are read, replayed. -/
def Relocated (env : Env) (repo : Repo) (name : String) (workingTip point old : Commit)
    (kind : PointKind) :
    Prop :=
  let ledgerTip := readLedgerTip env repo workingTip
  if kind = .pending then
    ((commitsInRange env point ledgerTip).getLast?.map Commit.tree).getD point.tree = old.tree ∧
      ∀ base, crystallizeMilestone env workingTip point name = .ok base →
        ((Commit.range point old).map Commit.content).Sublist
          (base.history.map Commit.content ++
            (commitsInRange env point ledgerTip).map Commit.replayedContent)
  else
    ledgerTip.tree = old.tree ∧
      ((Commit.range point old).map Commit.content).Sublist (ledgerTip.history.map Commit.content)

/-- What a fork that is not refused needs, by where its commands stop. -/
def Needs (env : Env) (repo : Repo) (req : ForkRequest) : Stage → Prop
  | .name =>
    (repo.head = .branch (ledgerName req.name) → req.name = repo.recorded) ∧
      (req.name ∈ repo.refs.keys → repo.head = .branch req.name) ∧
      (ledgerName req.name ∈ repo.refs.keys → repo.head = .branch (ledgerName req.name))
  | .ledger =>
    (repo.head = .branch (ledgerName req.name) → req.name = repo.recorded) ∧
      repo.head ≠ .branch req.name ∧
      (ledgerName req.name ∈ repo.refs.keys → repo.head = .branch (ledgerName req.name))
  | .checkout => repo.head ≠ .branch req.name ∧ repo.head ≠ .branch (ledgerName req.name)
  | .away =>
    repo.head = .branch (ledgerName repo.recorded) ∧
      ∀ workingTip, env.read .currentRead repo repo.recorded = some workingTip →
        repo.refs.get? (ledgerName repo.recorded) = some (readLedgerTip env repo workingTip)
  | .done => req.move = true → ∀ workingTip point kind old,
      env.read .currentRead repo repo.recorded = some workingTip →
      forkPoint env repo req = some point →
      pointKind env workingTip (readLedgerTip env repo workingTip) point = some kind →
      repo.refs.get? (ledgerName repo.recorded) = some old →
      Relocated env repo req.name workingTip point old kind

/-- The request is refused before it changes a ref, or the repository is as its commands need it. -/
def Forkable (env : Env) (repo : Repo) (req : ForkRequest) : Prop :=
  (planFork env repo req).isOk = true → Needs env repo req (stage env repo req)

/-! ### What was planned -/

/-- A check passes exactly when it does not refuse. -/
theorem refuseIf_eq_ok {refused : Bool} {e : GitError} :
    refuseIf refused e = .ok () ↔ refused = false := by
  cases refused <;> simp [refuseIf]

/-- A name that is planned for is no ledger's. -/
theorem checkRequest_eq_ok (h : checkRequest env req = .ok ()) :
    branchNameProblem req.name = none ∧ isLedgerName req.name = false ∧
      (req.move && req.switch) = false := by
  obtain ⟨_, -, h⟩ := bind_eq_ok.mp h
  obtain ⟨_, hname, h⟩ := bind_eq_ok.mp h
  obtain ⟨_, -, h⟩ := bind_eq_ok.mp h
  obtain ⟨_, heligible, h⟩ := bind_eq_ok.mp h
  refine ⟨?_, ?_, refuseIf_eq_ok.mp h⟩
  · unfold assertNewBranchName at hname
    split at hname
    · cases hname
    · assumption
  · unfold assertEligibleWorking at heligible
    split at heligible
    · cases heligible
    · split_ifs at heligible with hprotected hledger
      exact Bool.eq_false_iff.mpr hledger

/-- The tips were read: the new names are free, and the recorded branch has a commit. -/
theorem readTips_eq_ok {name : String} {tips : Commit × Commit}
    (h : readTips env repo name = .ok tips) :
    env.read .nameRead repo name = none ∧ env.read .newLedgerRead repo (ledgerName name) = none ∧
      env.read .currentRead repo repo.recorded = some tips.1 ∧
      tips.2 = (env.read .ledgerRead repo (ledgerName repo.recorded)).getD tips.1 := by
  obtain ⟨_, hname, h⟩ := bind_eq_ok.mp h
  obtain ⟨_, hledger, h⟩ := bind_eq_ok.mp h
  obtain ⟨workingTip, htip, h⟩ := bind_eq_ok.mp h
  cases h
  refine ⟨by simpa using refuseIf_eq_ok.mp hname, by simpa using refuseIf_eq_ok.mp hledger, ?_, rfl⟩
  unfold readWorkingTip at htip
  split at htip
  · cases htip
  · next tip hread =>
    cases htip
    exact hread

/-- The fork point that was read is the one asked for. -/
theorem readPoint_eq_ok {point : Commit} (h : readPoint env repo req = .ok point) :
    forkPoint env repo req = some point := by
  obtain ⟨_, -, h⟩ := bind_eq_ok.mp h
  split at h
  · cases h
  · next tip hpoint =>
    cases h
    exact hpoint

/-- The kind of point that was read is the point's own. -/
theorem readKind_eq_ok {workingTip ledgerTip point : Commit} {kind : PointKind}
    (h : readKind env workingTip ledgerTip point = .ok kind) :
    pointKind env workingTip ledgerTip point = some kind := by
  unfold readKind at h
  split at h
  · cases h
  · next kind' hkind =>
    cases h
    exact hkind

/-- A milestone made of a save has the save's tree. -/
theorem crystallize_tree {anchor save base : Commit} {name : String}
    (h : crystallizeMilestone env anchor save name = .ok base) : base.tree = save.tree := by
  obtain ⟨_, -, h⟩ := bind_eq_ok.mp h
  obtain ⟨_, -, h⟩ := bind_eq_ok.mp h
  cases h
  rfl

/-- What a plan says of the branches it read. -/
structure Planned (env : Env) (repo : Repo) (req : ForkRequest) (fork : Fork) : Prop where
  name : env.read .nameRead repo req.name = none
  newLedger : env.read .newLedgerRead repo (ledgerName req.name) = none
  problem : branchNameProblem req.name = none
  notLedger : isLedgerName req.name = false
  once : (req.move && req.switch) = false
  ledger : fork.ledger = ledgerName repo.recorded
  point : forkPoint env repo req = some fork.point
  tips : ∃ workingTip kind, env.read .currentRead repo repo.recorded = some workingTip ∧
    fork.ledgerTip = readLedgerTip env repo workingTip ∧
    pointKind env workingTip fork.ledgerTip fork.point = some kind ∧
    (req.move = true →
      (kind ≠ .pending ∧ fork.newLedgerTip = fork.ledgerTip) ∨
      (kind = .pending ∧ crystallizeMilestone env workingTip fork.point req.name = .ok fork.base ∧
        replayOnto env 0 fork.base (commitsInRange env fork.point fork.ledgerTip)
          = .ok fork.newLedgerTip))

/-- A plan that was made names the point, its kind and what the new branches will hold. -/
theorem planned (h : planFork env repo req = .ok fork) : Planned env repo req fork := by
  obtain ⟨_, hcheck, h⟩ := bind_eq_ok.mp h
  obtain ⟨tips, htips, h⟩ := bind_eq_ok.mp h
  obtain ⟨point, hpoint, h⟩ := bind_eq_ok.mp h
  obtain ⟨kind, hkind, h⟩ := bind_eq_ok.mp h
  obtain ⟨_, hfolded, h⟩ := bind_eq_ok.mp h
  obtain ⟨_, -, h⟩ := bind_eq_ok.mp h
  obtain ⟨base, hbase, h⟩ := bind_eq_ok.mp h
  obtain ⟨newLedgerTip, htip, h⟩ := bind_eq_ok.mp h
  cases h
  obtain ⟨hproblem, hledger, honce⟩ := checkRequest_eq_ok hcheck
  obtain ⟨hname, hnew, hcurrent, hold⟩ := readTips_eq_ok htips
  refine ⟨hname, hnew, hproblem, hledger, honce, rfl, readPoint_eq_ok hpoint, tips.1,
    kind, hcurrent, hold,
    readKind_eq_ok hkind, fun hmove => ?_⟩
  rw [newTip, if_pos hmove] at htip
  obtain ⟨_, -, hguarded⟩ := bind_eq_ok.mp htip
  obtain ⟨_, -, hlast⟩ := bind_eq_ok.mp hguarded
  split_ifs at hlast with hmilestone
  · exact .inl ⟨by rw [hmilestone]; decide, (Except.ok.inj hlast).symm⟩
  · refine .inr ?_
    have hnot : kind ≠ .folded := by
      rintro rfl
      simp [hmove] at hfolded
      cases refuseIf_eq_ok.mp hfolded
    have hpending : kind = .pending := by
      cases kind with
      | milestone => exact absurd rfl hmilestone
      | folded => exact absurd rfl hnot
      | pending => rfl
    subst hpending
    exact ⟨rfl, hbase, hlast⟩

/-! ### The names of a fork -/

/-- A ledger's name ends as one, but for the name of no branch. -/
theorem isLedgerName_ledgerName {working : String} (h : working ≠ "") :
    isLedgerName (ledgerName working) = true := by
  have hlen : 0 < working.length := Nat.pos_of_ne_zero fun h0 => h (String.length_eq_zero_iff.mp h0)
  have hsuffix : ledgerSuffix.toList.isSuffixOf (ledgerName working).toList = true := by
    rw [List.isSuffixOf_iff_suffix, ledgerName, String.toList_append]
    exact List.suffix_append _ _
  rw [isLedgerName, hsuffix, Bool.true_and, decide_eq_true_eq, ledgerName, String.length_append]
  omega

/-- A branch is determined by the name of its ledger. -/
theorem ledgerName_injective {name name' : String} (h : ledgerName name = ledgerName name') :
    name = name' := by
  have hlist := congrArg String.toList h
  rw [ledgerName, ledgerName, String.toList_append, String.toList_append,
    List.append_left_inj] at hlist
  exact String.toList_injective hlist

/-- No branch has the name of its own ledger. -/
theorem ledgerName_ne_self (name : String) : name ≠ ledgerName name := by
  intro h
  have hlen := congrArg String.length h
  rw [ledgerName, String.length_append] at hlen
  have hpos : 0 < ledgerSuffix.length := by decide
  omega

/-- A new branch is not named as a ledger: neither its own nor the recorded branch's. -/
theorem Planned.name_ne (h : Planned env repo req fork) : req.name ≠ ledgerName repo.recorded := by
  intro heq
  have hnot := h.notLedger
  rw [heq] at hnot
  by_cases hempty : repo.recorded = ""
  · have hproblem := h.problem
    rw [heq, hempty] at hproblem
    exact absurd hproblem (by decide)
  · rw [isLedgerName_ledgerName hempty] at hnot
    cases hnot

/-! ### Relocated saves -/

/-- A replayed save is the save put on the tip. -/
theorem replayOne_eq_ok {i : ℕ} {tip c new : Commit} (h : replayOne env i tip c = .ok new) :
    new = replayed tip c := by
  obtain ⟨_, -, h1⟩ := bind_eq_ok.mp h
  obtain ⟨_, -, h2⟩ := bind_eq_ok.mp h1
  obtain ⟨_, -, h3⟩ := bind_eq_ok.mp h2
  obtain ⟨_, -, h4⟩ := bind_eq_ok.mp h3
  obtain ⟨_, -, h5⟩ := bind_eq_ok.mp h4
  exact (Except.ok.inj h5).symm

/-- **A replay** puts the commits on top of `tip`, as a replay keeps them. -/
theorem replayOnto_eq_ok {cs : List Commit} {i : ℕ} {tip new : Commit}
    (h : replayOnto env i tip cs = .ok new) :
    new.history.map Commit.content = tip.history.map Commit.content ++
      cs.map Commit.replayedContent ∧
      new.tree = (cs.getLast?.map Commit.tree).getD tip.tree := by
  induction cs generalizing i tip with
  | nil =>
    cases h
    exact ⟨(List.append_nil _).symm, rfl⟩
  | cons c cs ih =>
    obtain ⟨tip', htip', h⟩ := bind_eq_ok.mp h
    obtain rfl := replayOne_eq_ok htip'
    obtain ⟨hhistory, htree⟩ := ih h
    constructor
    · rw [hhistory, replayed, Commit.history_child, List.map_append, List.map_singleton,
        List.append_assoc]
      rfl
    · rw [htree, List.getLast?_cons]
      cases cs.getLast? <;> rfl

/-- What is carried, by the contents of the new ledger's history. -/
theorem carries_iff {point old new : Commit} : Carries point old new ↔ new.tree = old.tree ∧
    ((Commit.range point old).map Commit.content).Sublist (new.history.map Commit.content) := by
  refine and_congr_right fun _ => ⟨?_, fun h => ?_⟩
  · rintro ⟨copies, hsublist, hcontent⟩
    rw [← hcontent]
    exact hsublist.map _
  · obtain ⟨copies, hsublist, hcontent⟩ := List.sublist_map_iff.mp h
    exact ⟨copies, hsublist, hcontent.symm⟩

/-- **The new ledger of a move** carries the saves that are relocated, and no others. -/
theorem Planned.carries_iff_relocated (h : Planned env repo req fork) (hmove : req.move = true)
    {old : Commit} : Carries fork.point old fork.newLedgerTip ↔ ∀ workingTip point kind,
      env.read .currentRead repo repo.recorded = some workingTip →
        forkPoint env repo req = some point →
      pointKind env workingTip (readLedgerTip env repo workingTip) point = some kind →
      Relocated env repo req.name workingTip point old kind := by
  obtain ⟨workingTip, kind, hcurrent, htip, hkind, hnew⟩ := h.tips
  rw [htip] at hkind hnew
  have hiff : Carries fork.point old fork.newLedgerTip ↔
      Relocated env repo req.name workingTip fork.point old kind := by
    unfold Relocated
    rcases hnew hmove with ⟨hne, hsame⟩ | ⟨rfl, hbase, hreplay⟩
    · rw [if_neg hne, hsame, carries_iff]
    · obtain ⟨hhistory, htree⟩ := replayOnto_eq_ok hreplay
      rw [if_pos rfl, carries_iff, hhistory, htree, crystallize_tree hbase]
      refine and_congr_right fun _ => ⟨fun hsublist base hbase' => ?_, fun hall => hall _ hbase⟩
      rwa [← Except.ok.inj (hbase.symm.trans hbase')]
  rw [hiff]
  refine ⟨fun hrelocated workingTip' point' kind' hcurrent' hpoint' hkind' => ?_,
    fun hall => hall _ _ _ hcurrent h.point hkind⟩
  obtain rfl := Option.some.inj (hcurrent.symm.trans hcurrent')
  obtain rfl := Option.some.inj (h.point.symm.trans hpoint')
  obtain rfl := Option.some.inj (hkind.symm.trans hkind')
  exact hrelocated

/-- The tip that the rollback puts back. -/
theorem Planned.ledgerTip_eq_iff (h : Planned env repo req fork) {tip : Option Commit} :
    tip = some fork.ledgerTip ↔ ∀ workingTip,
      env.read .currentRead repo repo.recorded = some workingTip →
        tip = some (readLedgerTip env repo workingTip) := by
  obtain ⟨workingTip, kind, hcurrent, htip, -⟩ := h.tips
  rw [htip]
  refine ⟨fun heq workingTip' hcurrent' => ?_, fun hall => hall _ hcurrent⟩
  rwa [← Option.some.inj (hcurrent.symm.trans hcurrent')]

/-! ### The commands, one after another -/

/-- Setting one branch leaves the others. -/
theorem get?_insert {refs : OrdDict String Commit} {name name' : String} {c : Commit} :
    (refs.insert name c).get? name' = if name' = name then some c else refs.get? name' := by
  rw [OrdDict.insert, OrdDict.get?_upsert]

/-- A command that fails leaves the repository. -/
theorem command_error {site : Site} {f : Repo → Option Repo}
    (h : env.fails site = true ∨ f repo = none) :
    env.command site f repo = (.error (.command site), repo) := by
  unfold Env.command
  split_ifs with hfails
  · rfl
  · rw [h.resolve_left hfails]

/-- A command that succeeds does what it says. -/
theorem command_ok {site : Site} {f : Repo → Option Repo} {next : Repo}
    (hfails : env.fails site = false)
    (h : f repo = some next) : env.command site f repo = (.ok (), next) := by
  unfold Env.command
  rw [if_neg (by rw [hfails]; decide), h]

theorem command_record {name : String} (hfails : env.fails .record = false) :
    env.command .record (fun r => r.record name) repo = (.ok (), { repo with recorded := name }) :=
  command_ok hfails rfl

/-- The repository with HEAD on another branch. -/
def Repo.opened (repo : Repo) (name : String) : Repo := { repo with head := .branch name }

/-- **A checkout** of a branch that is there moves HEAD, unless something fails before it has. -/
theorem rewriteTree_spec {name : String} (hmem : name ∈ repo.refs.keys) :
    (((env.beforeCheckout repo).isOk = false ∨ env.fails .checkout = true) →
      ∃ e, rewriteTree env name repo = (.error e, repo)) ∧
    ((env.beforeCheckout repo).isOk = true → env.fails .checkout = false →
      (env.fails .checkoutAfter = true → ∃ e, rewriteTree env name repo =
        (.error e, repo.opened name)) ∧
      (env.fails .checkoutAfter = false → rewriteTree env name repo =
        (.ok (), repo.opened name))) := by
  have hopen : repo.checkout name = some (repo.opened name) := if_pos hmem
  unfold rewriteTree
  simp only [Effect.bind_apply, Effect.get_apply, Effect.ofExcept_apply, Effect.attempt_apply]
  rcases hbefore : env.beforeCheckout repo with e | _
  · exact ⟨fun _ => ⟨e, rfl⟩, fun h => by cases h⟩
  refine ⟨fun h => ?_, fun _ hcheckout => ?_⟩
  · -- the files are read again, and the failure is raised
    have hfails : env.fails .checkout = true := h.resolve_left (fun hnot => by cases hnot)
    have hcommand : env.command .checkout (fun r => r.checkout name) repo =
        (.error (.command .checkout), repo) :=
      command_error (.inl hfails)
    simp only [hcommand, Env.run]
    split_ifs
    · exact ⟨_, rfl⟩
    · exact ⟨_, rfl⟩
  · have hcommand : env.command .checkout (fun r => r.checkout name) repo =
        (.ok (), repo.opened name) :=
      command_ok hcheckout hopen
    simp only [hcommand, Env.run]
    constructor
    · intro hafter
      rw [if_pos hafter]
      exact ⟨_, rfl⟩
    · intro hafter
      rw [if_neg (by rw [hafter]; decide)]

/-- The repository with the first branch of a fork made. -/
def begun (repo : Repo) (req : ForkRequest) (fork : Fork) : Repo :=
  { repo with refs := repo.refs.insert req.name fork.base }

/-- The repository with both branches of a fork made. -/
def forked (repo : Repo) (req : ForkRequest) (fork : Fork) : Repo :=
  { repo with
    refs := (repo.refs.insert req.name fork.base).insert (ledgerName req.name) fork.newLedgerTip }

/-- The branches once the new one is made. -/
theorem get?_begun (name : String) : (begun repo req fork).refs.get? name =
    if name = req.name then some fork.base else repo.refs.get? name := get?_insert

/-- The branches once the new one and its ledger are made. -/
theorem get?_forked (name : String) : (forked repo req fork).refs.get? name =
    if name = ledgerName req.name then some fork.newLedgerTip
    else if name = req.name then some fork.base else repo.refs.get? name := by
  rw [forked, get?_insert, get?_insert]

/-- What the commands of a fork leave, by where they stop. -/
def Left (repo : Repo) (req : ForkRequest) (fork : Fork) (result : Except GitError Unit × Repo) :
    Stage → Prop
  | .name => ∃ e, result = (.error e, repo)
  | .ledger => ∃ e, result = (.error e, begun repo req fork)
  | .checkout => ∃ e, result = (.error e, forked repo req fork)
  | .away => ∃ e left, result = (.error e, left) ∧ left.tags = repo.tags ∧
    left.others = repo.others ∧
      left.head = .branch (ledgerName req.name) ∧ ∀ name,
        name ≠ ledgerName repo.recorded ∨ req.name = repo.recorded →
          left.refs.get? name = (forked repo req fork).refs.get? name
  | .done => ∃ left, result = (.ok (), left) ∧ left.refs =
      if req.move then (forked repo req fork).refs.insert (ledgerName repo.recorded) fork.point
      else (forked repo req fork).refs

/-- The first two commands, where neither fails. -/
theorem applyFork_forked (hname : ¬(env.fails .branchName = true ∨ req.name ∈ repo.refs.keys))
    (hnew : ¬(env.fails .branchLedger = true ∨ ledgerName req.name ∈ repo.refs.keys)) :
    env.command .branchName (fun r => r.branch req.name fork.base) repo =
      (.ok (), begun repo req fork) ∧
    env.command .branchLedger (fun r => r.branch (ledgerName req.name) fork.newLedgerTip)
      (begun repo req fork) = (.ok (), forked repo req fork) := by
  push Not at hname hnew
  have hfree : ledgerName req.name ∉ (begun repo req fork).refs.keys := by
    intro hmem
    rcases OrdDict.mem_keys_upsert.mp hmem with heq | hmem
    · exact ledgerName_ne_self req.name heq.symm
    · exact hnew.2 hmem
  exact ⟨command_ok (by simpa using hname.1) (if_neg hname.2),
    command_ok (by simpa using hnew.1) (if_neg hfree)⟩

/-- The commands after the new ledger is open. -/
def finishFork (env : Env) (req : ForkRequest) (fork : Fork) : Effect Repo GitError Unit := do
  if req.move then do
    env.command .rewind fun r => r.branchForce fork.ledger fork.point
    env.command .record fun r => r.record req.name
  else env.command .record fun r => r.record req.name

/-- **The rest of a fork** that opens its ledger: HEAD is on it, so the old one is moved back unless
the two have one name. -/
theorem finishFork_spec (hledger : fork.ledger = ledgerName repo.recorded) :
    ((req.move = true ∧ (env.fails .rewind = true ∨ req.name = repo.recorded) ∨
      env.fails .record = true) →
      Left repo req fork
        (finishFork env req fork ((forked repo req fork).opened (ledgerName req.name)))
        .away) ∧
    (¬(req.move = true ∧ (env.fails .rewind = true ∨ req.name = repo.recorded) ∨
      env.fails .record = true) →
      Left repo req fork
        (finishFork env req fork ((forked repo req fork).opened (ledgerName req.name)))
        .done) := by
  unfold finishFork
  rw [hledger]
  cases hmove : req.move with
  | false =>
    rw [if_neg (by decide)]
    refine ⟨fun h => ?_, fun h => ?_⟩
    · have hfails : env.fails .record = true := h.resolve_left (fun hnot => by cases hnot.1)
      rw [command_error (.inl hfails)]
      exact ⟨_, _, rfl, rfl, rfl, rfl, fun _ _ => rfl⟩
    · have hfails : env.fails .record = false := by simpa using h
      rw [command_record hfails]
      exact ⟨_, rfl, by rw [hmove]; rfl⟩
  | true =>
    rw [if_pos rfl, Effect.bind_apply]
    by_cases hrewind : env.fails .rewind = true ∨ req.name = repo.recorded
    · rw [command_error (hrewind.imp_right fun heq => if_pos (by rw [heq]; rfl))]
      exact ⟨fun _ => ⟨_, _, rfl, rfl, rfl, rfl, fun _ _ => rfl⟩, fun h =>
        absurd (.inl ⟨rfl, hrewind⟩) h⟩
    · push Not at hrewind
      have hhead : ((forked repo req fork).opened (ledgerName req.name)).head
          ≠ .branch (ledgerName repo.recorded) := fun heq =>
        hrewind.2 (ledgerName_injective (Head.branch.inj heq))
      rw [command_ok (by simpa using hrewind.1) (if_neg hhead)]
      dsimp only
      refine ⟨fun h => ?_, fun h => ?_⟩
      · have hfails : env.fails .record = true := h.resolve_left fun hnot =>
          hnot.2.elim (by simpa using hrewind.1) hrewind.2
        rw [command_error (.inl hfails)]
        refine ⟨_, _, rfl, rfl, rfl, rfl, fun name hname => ?_⟩
        show OrdDict.get? ((forked repo req fork).refs.insert _ _) name = _
        rw [get?_insert, if_neg (hname.resolve_right hrewind.2)]
      · have hfails : env.fails .record = false := by
          push Not at h
          simpa using h.2
        rw [command_record hfails]
        exact ⟨_, rfl, by rw [hmove]; rfl⟩

/-- The commands after both branches are made. -/
theorem applyFork_rest (hfirst : env.command .branchName (fun r => r.branch req.name fork.base) repo
      = (.ok (), begun repo req fork))
    (hsecond : env.command .branchLedger (fun r => r.branch (ledgerName req.name) fork.newLedgerTip)
      (begun repo req fork) = (.ok (), forked repo req fork)) :
    applyFork env req fork repo = if req.move = false ∧ req.switch =
      false then (.ok (), forked repo req fork)
      else (rewriteTree env (ledgerName req.name) >>= fun _ => finishFork env req fork)
        (forked repo req fork) := by
  unfold applyFork finishFork
  rw [Effect.bind_apply, hfirst]
  dsimp only
  rw [Effect.bind_apply, hsecond]
  dsimp only
  cases req.move with
  | true => rfl
  | false =>
    cases req.switch with
    | true => rfl
    | false => rfl

/-- **Where the commands of a fork stop**, and what they leave. -/
theorem applyFork_left (hledger : fork.ledger = ledgerName repo.recorded) :
    Left repo req fork (applyFork env req fork repo) (stage env repo req) := by
  unfold stage
  split_ifs with hname hnew hstay hcheckout haway
  · -- the first branch
    have hfirst : env.command .branchName (fun r => r.branch req.name fork.base) repo
        = (.error (.command .branchName), repo) :=
          command_error (hname.imp_right fun hmem => if_pos hmem)
    unfold applyFork
    rw [Effect.bind_apply, hfirst]
    exact ⟨_, rfl⟩
  · -- the second
    have hfirst : env.command .branchName (fun r => r.branch req.name fork.base) repo
        = (.ok (), begun repo req fork) := by
      push Not at hname
      exact command_ok (by simpa using hname.1) (if_neg hname.2)
    have hsecond : env.command .branchLedger
        (fun r => r.branch (ledgerName req.name) fork.newLedgerTip)
        (begun repo req fork) = (.error (.command .branchLedger), begun repo req fork) :=
      command_error (hnew.imp_right fun hmem => if_pos (OrdDict.mem_keys_upsert.mpr (.inr hmem)))
    unfold applyFork
    rw [Effect.bind_apply, hfirst]
    dsimp only
    rw [Effect.bind_apply, hsecond]
    exact ⟨_, rfl⟩
  all_goals
    obtain ⟨hfirst, hsecond⟩ := @applyFork_forked env repo req fork hname hnew
    rw [applyFork_rest hfirst hsecond]
  · rw [if_pos hstay]
    exact ⟨_, rfl, by rw [hstay.1]; rfl⟩
  all_goals
    have hmem : ledgerName req.name ∈ (forked repo req fork).refs.keys :=
      OrdDict.mem_keys_iff.mpr ⟨fork.newLedgerTip, by rw [get?_forked, if_pos rfl]⟩
    obtain ⟨hbefore, hafter⟩ := @rewriteTree_spec env (forked repo req fork) _ hmem
    rw [if_neg hstay, Effect.bind_apply]
  · obtain ⟨e, he⟩ := hbefore hcheckout
    rw [he]
    exact ⟨e, rfl⟩
  all_goals
    push Not at hcheckout
    have hready : (env.beforeCheckout repo).isOk = true := by simpa using hcheckout.1
    obtain ⟨hraises, hopens⟩ := hafter hready (by simpa using hcheckout.2)
    obtain ⟨hstops, hends⟩ := @finishFork_spec env repo req fork hledger
  · -- the files are read again when HEAD has moved
    by_cases hread : env.fails .checkoutAfter = true
    · obtain ⟨e, he⟩ := hraises hread
      rw [he]
      exact ⟨e, _, rfl, rfl, rfl, rfl, fun _ _ => rfl⟩
    · rw [hopens (by simpa using hread)]
      exact hstops (haway.resolve_left hread)
  · push Not at haway
    rw [hopens (by simpa using haway.1)]
    refine hends fun h => h.elim (fun hmoved => ?_) haway.2.2
    exact hmoved.2.elim (haway.2.1 hmoved.1).1 (haway.2.1 hmoved.1).2

/-! ### Undoing -/

/-- What `rev-parse` does not find is no branch. -/
theorem get?_of_revParse {name : String} (h : repo.revParse name = none) :
    repo.refs.get? name = none := by
  unfold Repo.revParse at h
  cases htag : repo.tags.get? name with
  | some c => rw [htag] at h; cases h
  | none =>
    cases href : repo.refs.get? name with
    | none => rfl
    | some c => rw [htag, href] at h; cases h

/-- Deleting a branch takes that name alone, unless it is checked out. -/
theorem deleteIfPresent_spec (name : String) (r : Repo × Bool) :
    (∀ name', (deleteIfPresent name r).1.refs.get? name'
      = if name' = name ∧ r.1.head ≠ .branch name then none else r.1.refs.get? name') ∧
    (deleteIfPresent name r).1.tags = r.1.tags ∧ (deleteIfPresent name r).1.others = r.1.others ∧
    (deleteIfPresent name r).1.head = r.1.head ∧
    (deleteIfPresent name r).1.recorded = r.1.recorded := by
  have habsent : r.1.refs.get? name = none ∨ r.1.head = .branch name → ∀ name', r.1.refs.get? name'
      = if name' = name ∧ r.1.head ≠ .branch name then none else r.1.refs.get? name' := by
    intro h name'
    split_ifs with heq
    · rw [heq.1, h.resolve_right heq.2]
    · rfl
  unfold deleteIfPresent
  split_ifs with hparse
  · exact ⟨habsent (.inl (get?_of_revParse (by simpa using hparse))), rfl, rfl, rfl, rfl⟩
  · unfold undo
    dsimp only
    unfold Repo.branchDelete
    split_ifs with hkept
    · refine ⟨habsent (hkept.symm.imp_left OrdDict.get?_eq_none_iff.mpr), rfl, rfl, rfl, rfl⟩
    · push Not at hkept
      refine ⟨fun name' => ?_, rfl, rfl, rfl, rfl⟩
      rw [OrdDict.get?_erase]
      simp only [hkept.1, ne_eq, not_false_eq_true, and_true]

/-- The rollback's first steps, where HEAD has left for the new ledger. -/
def reopen (name ledger : String) (ledgerTip : Commit) (repo : Repo) : Repo × Bool :=
  if repo.head = .branch (ledgerName name) then
    undo (fun r => r.checkout ledger) (undo (fun r => r.branchForce ledger ledgerTip) (repo, true))
  else (repo, true)

/-- **HEAD is back on the old ledger**, at the tip that was read unless the two ledgers have one
name. -/
theorem reopen_spec {name ledger : String} {ledgerTip : Commit} {left : Repo} :
    (reopen name ledger ledgerTip left).1.tags = left.tags ∧
    (reopen name ledger ledgerTip left).1.others = left.others ∧
    (reopen name ledger ledgerTip left).1.head =
      (if left.head = .branch (ledgerName name) then .branch ledger else left.head) ∧
    ∀ name', (reopen name ledger ledgerTip left).1.refs.get? name' =
      if name' = ledger ∧ left.head = .branch (ledgerName name) ∧ ledgerName name ≠
        ledger then some ledgerTip
      else left.refs.get? name' := by
  unfold reopen
  by_cases hhead : left.head = .branch (ledgerName name)
  · rw [if_pos hhead]
    by_cases hsame : ledgerName name = ledger
    · -- neither step changes anything: HEAD is on the ledger
      have hforce : left.branchForce ledger ledgerTip = none := if_pos (by rw [hhead, hsame])
      have hundone : undo (fun r => r.branchForce ledger ledgerTip) (left, true) =
          (left, false) := by
        rw [undo, hforce]
      rw [hundone, if_pos hhead]
      unfold undo Repo.checkout
      dsimp only
      split
      · refine ⟨rfl, rfl, by rw [hhead, hsame], fun name' => ?_⟩
        rw [if_neg fun h => h.2.2 hsame]
      · next repo hrepo =>
        split_ifs at hrepo
        cases hrepo
        refine ⟨rfl, rfl, rfl, fun name' => ?_⟩
        rw [if_neg fun h => h.2.2 hsame]
    · have hforce : left.branchForce ledger ledgerTip
          = some { left with refs := left.refs.insert ledger ledgerTip } :=
        if_neg fun heq => hsame (Head.branch.inj (hhead.symm.trans heq))
      have hundone : undo (fun r => r.branchForce ledger ledgerTip) (left, true)
          = ({ left with refs := left.refs.insert ledger ledgerTip }, true) := by
        rw [undo, hforce]
      have hmem : ledger ∈ (left.refs.insert ledger ledgerTip).keys :=
        OrdDict.mem_keys_iff.mpr ⟨ledgerTip, by rw [get?_insert, if_pos rfl]⟩
      rw [hundone, if_pos hhead, undo, Repo.checkout, if_pos hmem]
      refine ⟨rfl, rfl, rfl, fun name' => ?_⟩
      dsimp only
      rw [get?_insert]
      simp only [hhead, hsame, ne_eq, not_false_eq_true, and_self, and_true]
  · rw [if_neg hhead, if_neg hhead]
    exact ⟨rfl, rfl, rfl, fun name' => by rw [if_neg fun h => hhead h.2.1]⟩

/-- **What the rollback leaves**: HEAD back on the old ledger, at the tip that was read, where it
had left for the new one; and neither of the new branches, but for one that HEAD is still on. -/
theorem rollbackFork_spec {name ledger recorded : String} {ledgerTip : Commit} {left : Repo}
    (hne : name ≠ ledger) :
    (rollbackFork name ledger ledgerTip recorded left).1.tags = left.tags ∧
    (rollbackFork name ledger ledgerTip recorded left).1.others = left.others ∧
    (rollbackFork name ledger ledgerTip recorded left).1.recorded = recorded ∧
    (rollbackFork name ledger ledgerTip recorded left).1.head =
      (if left.head = .branch (ledgerName name) then .branch ledger else left.head) ∧
    ∀ name', (rollbackFork name ledger ledgerTip recorded left).1.refs.get? name' =
      if name' = name then (if left.head = .branch name then left.refs.get? name else none)
      else if name' = ledgerName name then
        (if left.head = .branch (ledgerName name) ∧ ledgerName name =
          ledger then left.refs.get? name' else none)
      else if name' = ledger ∧ left.head = .branch (ledgerName name) then some ledgerTip
      else left.refs.get? name' := by
  have hrollback : rollbackFork name ledger ledgerTip recorded left
      = undo (fun r => r.record recorded)
        (deleteIfPresent name
          (deleteIfPresent (ledgerName name) (reopen name ledger ledgerTip left))) := rfl
  obtain ⟨htags, hothers, hhead, hrefs⟩ := @reopen_spec name ledger ledgerTip left
  obtain ⟨hrefs1, htags1, hothers1, hhead1, -⟩ :=
    deleteIfPresent_spec (ledgerName name) (reopen name ledger ledgerTip left)
  obtain ⟨hrefs2, htags2, hothers2, hhead2, -⟩ :=
    deleteIfPresent_spec name
      (deleteIfPresent (ledgerName name) (reopen name ledger ledgerTip left))
  rw [hrollback]
  refine ⟨htags2.trans (htags1.trans htags), hothers2.trans (hothers1.trans hothers), rfl,
    hhead2.trans (hhead1.trans hhead), fun name' => ?_⟩
  refine (hrefs2 name').trans ?_
  rw [hrefs1, hhead1, hrefs, hhead]
  have hself : name ≠ ledgerName name := ledgerName_ne_self name
  by_cases hleft : left.head = .branch (ledgerName name)
  · have hback : Head.branch ledger ≠ .branch name := fun h => hne (Head.branch.inj h).symm
    have haway : left.head ≠ .branch name := by
      rw [hleft]
      exact fun h => hself (Head.branch.inj h).symm
    have hkept : (Head.branch ledger ≠ .branch (ledgerName name)) ↔ ledgerName name ≠ ledger :=
      ⟨fun h heq => h (by rw [heq]), fun h heq => h (Head.branch.inj heq).symm⟩
    rw [if_pos hleft, if_neg haway]
    simp only [hkept, hback, hleft, true_and, and_true, ne_eq, not_false_eq_true]
    grind
  · rw [if_neg hleft]
    simp only [hleft, false_and, and_false, if_false, ne_eq, not_false_eq_true, and_true]
    grind

/-! ### All or nothing -/

/-- The names that are free where making the branches does not stop a fork. -/
theorem stage_free : (stage env repo req ≠ .name → req.name ∉ repo.refs.keys) ∧
    (stage env repo req ≠ .name → stage env repo req ≠ .ledger →
      ledgerName req.name ∉ repo.refs.keys) := by
  unfold stage
  split_ifs with hname hnew
  · exact ⟨fun h => absurd rfl h, fun h => absurd rfl h⟩
  · exact ⟨fun _ hmem => hname (.inr hmem), fun _ h => absurd rfl h⟩
  all_goals exact ⟨fun _ hmem => hname (.inr hmem), fun _ _ hmem => hnew (.inr hmem)⟩

/-- A fork that is undone changes nothing where HEAD is back, the new names are free again and the
other branches are as they were. -/
theorem unchanged_rollbackFork_iff {left : Repo} {ledgerTip : Commit}
    (hne : req.name ≠ ledgerName repo.recorded)
    (htags : left.tags = repo.tags) (hothers : left.others = repo.others) :
    Unchanged repo
      (rollbackFork req.name (ledgerName repo.recorded) ledgerTip repo.recorded left).1 ↔
      (if left.head = .branch (ledgerName req.name) then .branch (ledgerName repo.recorded)
        else left.head)
        = repo.head ∧
      (if left.head = .branch req.name then left.refs.get? req.name else none) =
        repo.refs.get? req.name ∧
      (if left.head = .branch (ledgerName req.name) ∧ ledgerName req.name = ledgerName repo.recorded
        then left.refs.get? (ledgerName req.name)
          else none) = repo.refs.get? (ledgerName req.name) ∧
      ∀ name, name ≠ req.name → name ≠ ledgerName req.name →
        (if name = ledgerName repo.recorded ∧ left.head =
          .branch (ledgerName req.name) then some ledgerTip
          else left.refs.get? name) = repo.refs.get? name := by
  obtain ⟨htags', hothers', hrecorded, hhead, hrefs⟩ :=
    @rollbackFork_spec req.name (ledgerName repo.recorded) repo.recorded ledgerTip left hne
  have hself : ledgerName req.name ≠ req.name := (ledgerName_ne_self req.name).symm
  constructor
  · intro h
    refine ⟨hhead.symm.trans h.head, ?_, ?_, fun name hname hledger => ?_⟩
    · rw [← h.refs, hrefs, if_pos rfl]
    · rw [← h.refs, hrefs, if_neg hself, if_pos rfl]
    · rw [← h.refs, hrefs, if_neg hname, if_neg hledger]
  · rintro ⟨hback, hname, hledger, hrest⟩
    refine ⟨fun name => ?_, htags'.trans htags, hothers'.trans hothers,
      hhead.trans hback, hrecorded⟩
    rw [hrefs]
    split_ifs with h1 h2 h3 h4 h5
    · rw [h1, ← hname, if_pos h2]
    · rw [h1, ← hname, if_neg h2]
    · rw [h3, ← hledger, if_pos h4]
    · rw [h3, ← hledger, if_neg h4]
    · rw [← hrest name h1 h3, if_pos h5]
    · rw [← hrest name h1 h3, if_neg h5]

/-- An undone fork that HEAD did not leave for. -/
theorem unchanged_rollbackFork_home_iff {left : Repo} {ledgerTip : Commit}
    (hne : req.name ≠ ledgerName repo.recorded) (htags : left.tags = repo.tags)
    (hothers : left.others = repo.others) (hhead : left.head = repo.head)
    (hrefs : ∀ name, name ≠ req.name → name ≠ ledgerName req.name →
      left.refs.get? name = repo.refs.get? name) :
    Unchanged repo
      (rollbackFork req.name (ledgerName repo.recorded) ledgerTip repo.recorded left).1 ↔
      (repo.head = .branch (ledgerName req.name) → req.name = repo.recorded) ∧
      (if repo.head = .branch req.name then left.refs.get? req.name else none) =
        repo.refs.get? req.name ∧
      (if repo.head = .branch (ledgerName req.name) then left.refs.get? (ledgerName req.name)
        else none)
        = repo.refs.get? (ledgerName req.name) := by
  rw [unchanged_rollbackFork_iff hne htags hothers, hhead]
  by_cases haway : repo.head = .branch (ledgerName req.name)
  · have hiff : Head.branch (ledgerName repo.recorded) = .branch (ledgerName req.name) ↔
        req.name = repo.recorded :=
      ⟨fun h => (ledgerName_injective (Head.branch.inj h)).symm, fun h => by rw [h]⟩
    simp only [haway, if_true, true_and, and_true, forall_const, hiff]
    constructor
    · rintro ⟨hsame, hname, hledger, -⟩
      rw [if_pos (congrArg ledgerName hsame)] at hledger
      exact ⟨hsame, hname, hledger⟩
    · rintro ⟨hsame, hname, hledger⟩
      refine ⟨hsame, hname, by
        rw [if_pos (congrArg ledgerName hsame), hledger], fun name hne' hledger' => ?_⟩
      rw [if_neg fun h => hledger' (by rw [h, hsame]), hrefs name hne' hledger']
  · simp only [haway, if_false, false_and, and_false, true_and, false_implies]
    exact and_congr_right fun _ => ⟨fun h => h.1, fun h => ⟨h, hrefs⟩⟩

theorem ite_none_eq_self_iff {p : Prop} [Decidable p] {name : String} :
    (if p then repo.refs.get? name else none) = repo.refs.get? name ↔
      (name ∈ repo.refs.keys → p) := by
  split_ifs with hp
  · simp [hp]
  · rw [eq_comm, OrdDict.get?_eq_none_iff]
    simp [hp]

theorem ite_none_eq_none_iff {p : Prop} [Decidable p] {c : Commit} {name : String}
    (hfree : name ∉ repo.refs.keys) : (if p then some c else none) = repo.refs.get? name ↔ ¬p := by
  rw [OrdDict.get?_eq_none_iff.mpr hfree]
  split_ifs with hp <;> simp [hp]

/-- What an undone fork needs that failed when HEAD had moved. -/
theorem unchanged_rollbackFork_away_iff {left : Repo} {ledgerTip : Commit}
    (hne : req.name ≠ ledgerName repo.recorded) (hname : req.name ∉ repo.refs.keys)
    (hledger : ledgerName req.name ∉ repo.refs.keys) (htags : left.tags = repo.tags)
    (hothers : left.others = repo.others) (hhead : left.head = .branch (ledgerName req.name))
    (hrefs : ∀ name, name ≠ ledgerName repo.recorded ∨ req.name = repo.recorded →
      left.refs.get? name = (forked repo req fork).refs.get? name) :
    Unchanged repo
      (rollbackFork req.name (ledgerName repo.recorded) ledgerTip repo.recorded left).1 ↔
      repo.head = .branch (ledgerName repo.recorded) ∧
        repo.refs.get? (ledgerName repo.recorded) = some ledgerTip := by
  have haway : left.head ≠ .branch req.name := by
    rw [hhead]
    exact fun h => ledgerName_ne_self req.name (Head.branch.inj h).symm
  rw [unchanged_rollbackFork_iff hne htags hothers, if_pos hhead, if_neg haway]
  simp only [hhead, true_and, and_true]
  have hnone := OrdDict.get?_eq_none_iff.mpr hname
  have hnone' := OrdDict.get?_eq_none_iff.mpr hledger
  constructor
  · rintro ⟨hback, -, hkept, hrest⟩
    have hdiffer : ledgerName req.name ≠ ledgerName repo.recorded := by
      intro hsame
      rw [if_pos hsame, hrefs _ (.inr (ledgerName_injective hsame)), get?_forked, if_pos rfl,
        hnone'] at hkept
      cases hkept
    refine ⟨hback.symm, ?_⟩
    rw [← hrest _ hne.symm hdiffer.symm, if_pos rfl]
  · rintro ⟨hback, htip⟩
    have hdiffer : ledgerName req.name ≠ ledgerName repo.recorded := by
      intro hsame
      rw [hsame, htip] at hnone'
      cases hnone'
    refine ⟨hback.symm, hnone.symm, by rw [if_neg hdiffer, hnone'], fun name hname' hledger' => ?_⟩
    split_ifs with heq
    · rw [heq, htip]
    · rw [hrefs name (.inl heq), get?_forked, if_neg hledger', if_neg hname']

/-- A fork that was applied is created where a move carries the saves over. -/
theorem created_iff {left : Repo} (hne : req.name ≠ ledgerName repo.recorded)
    (hname : req.name ∉ repo.refs.keys) (hledger : ledgerName req.name ∉ repo.refs.keys)
    (hrefs : left.refs = if req.move then (forked repo req fork).refs.insert
      (ledgerName repo.recorded) fork.point
      else (forked repo req fork).refs) :
    Created repo left req fork.point ↔ (req.move = true → ∀ old,
      repo.refs.get? (ledgerName repo.recorded) = some old →
        Carries fork.point old fork.newLedgerTip) := by
  have hself : req.name ≠ ledgerName req.name := ledgerName_ne_self req.name
  -- the refs of a move, but for the old ledger, are those with both branches made
  have hget : ∀ name, (req.move = true → name ≠ ledgerName repo.recorded) →
      left.refs.get? name = (forked repo req fork).refs.get? name := by
    intro name hkept
    rw [hrefs]
    split_ifs with hmove
    · rw [get?_insert, if_neg (hkept hmove)]
    · rfl
  have hdiffer : ∀ old, repo.refs.get? (ledgerName repo.recorded) = some old →
      ledgerName req.name ≠ ledgerName repo.recorded := by
    intro old hold hsame
    rw [hsame] at hledger
    exact hledger (OrdDict.mem_keys_iff.mpr ⟨old, hold⟩)
  constructor
  · intro h hmove old hold
    obtain ⟨tip, htip, hcarried⟩ := (h.moved hmove).2 old hold
    rw [hget _ fun _ => hdiffer old hold, get?_forked, if_pos rfl] at htip
    cases htip
    exact hcarried
  · intro hcarried
    refine ⟨⟨OrdDict.get?_eq_none_iff.mpr hname, fork.base, ?_⟩,
      ⟨OrdDict.get?_eq_none_iff.mpr hledger, ?_⟩,
      fun name hmem hkept => ?_, fun hmove =>
        ⟨?_, fun old hold => ⟨fork.newLedgerTip, ?_, hcarried hmove old hold⟩⟩⟩
    · rw [hget _ fun _ => hne, get?_forked, if_neg hself, if_pos rfl]
    · by_cases hsame : req.move = true ∧ ledgerName req.name = ledgerName repo.recorded
      · exact ⟨fork.point, by rw [hrefs, if_pos hsame.1, get?_insert, if_pos hsame.2]⟩
      · refine ⟨fork.newLedgerTip, ?_⟩
        rw [hget _ fun hmove hsame' => hsame ⟨hmove, hsame'⟩, get?_forked, if_pos rfl]
    · have hold : name ≠ ledgerName req.name := by
        rintro rfl
        exact hledger hmem
      have hold' : name ≠ req.name := by
        rintro rfl
        exact hname hmem
      rw [hget _ hkept, get?_forked, if_neg hold, if_neg hold']
    · rw [hrefs, if_pos hmove, get?_insert, if_pos rfl]
    · rw [hget _ fun _ => hdiffer old hold, get?_forked, if_pos rfl]

/-- A fork that raised is all or nothing where undoing it changes nothing. -/
theorem allOrNothing_error_iff {e : GitError} {left : Repo}
    (hplan : planFork env repo req = .ok fork)
    (happly : applyFork env req fork repo = (.error e, left)) :
    AllOrNothing env repo req (createWorkingBranch env repo req) ↔
      Unchanged repo (rollbackFork req.name fork.ledger fork.ledgerTip repo.recorded left).1 := by
  unfold createWorkingBranch
  simp only [hplan, happly]
  rfl

/-- What is needed of a fork that is planned. -/
theorem forkable_iff (hplan : planFork env repo req = .ok fork) :
    Forkable env repo req ↔ Needs env repo req (stage env repo req) := by
  unfold Forkable
  rw [hplan]
  exact ⟨fun h => h rfl, fun h _ => h⟩

/-- Commands that fail where `failing` says. -/
def failingAt (failing : Site → Bool) : Env :=
  ⟨failing, fun _ => false, ⟨"ann", "ann@example", "1"⟩, fun _ => "c"⟩

/-- A milestone. -/
def milestone : Commit := .mk "t0" [] ⟨"milestone", ⟨"ann", "", "0"⟩, ⟨"ann", "", "0"⟩⟩

/-- A save on it, and one on that. -/
def firstSave : Commit := .mk "t1" [milestone] ⟨"save", ⟨"ann", "", "1"⟩, ⟨"ann", "", "1"⟩⟩

def secondSave : Commit := .mk "t2" [firstSave] ⟨"save", ⟨"ann", "", "2"⟩, ⟨"ann", "", "2"⟩⟩

/-- A branch at the milestone with both saves on its ledger, which HEAD is on. -/
def savedTwice : Repo where
  refs := (OrdDict.empty.insert "work" milestone).insert "work-save" secondSave
  tags := .empty
  others := OrdDict.empty.insert "c1" firstSave
  head := .branch "work-save"
  recorded := "work"
  remotes := []
  unsaved := false
  inProgress := false

/-- A move at the first save, which takes the second along. -/
def moveSecond : ForkRequest := ⟨"idea", some "c1", true, false⟩

end Haute.Git
