import Haute.Data.Effect
import Haute.Data.OrdDict
import Haute.Git.Commits
import Haute.Schema.Labels

/-!
# Creating a working branch

`createWorkingBranch` on a repository with a recorded working branch: what it reads and
refuses, the fork it plans, the commands that apply it one after another, and the steps that
undo them. Every git command and state write has a `Site`, and `fails` says which of them
fail: a read through `_run_git_ok` then answers as if there were nothing, any other raises.
The steps that undo a failed fork run with no failures of their own.

The commits a fork makes are objects that no ref holds until the first `branch`, so only the
commands of `applyFork` change the repository. A checkout reads which files are changed before
and after its command, and either read may fail: the second one when HEAD has moved. Files that
another program holds open are left out.
-/

namespace Haute.Git

/-- What HEAD is on. -/
inductive Head where
  | branch (name : String)
  | detached (commit : Commit)
  deriving DecidableEq

/-- HEAD is on no branch. -/
def Head.isDetached : Head → Bool
  | .branch _ => false
  | .detached _ => true

/-- A repository: its branches, its tags and whatever else `rev-parse` resolves, where HEAD
is, the working branch recorded for the clone, its remotes, and whether a file is unsaved or
an operation of git's in progress. -/
structure Repo where
  refs : OrdDict String Commit
  tags : OrdDict String Commit
  others : OrdDict String Commit
  head : Head
  recorded : String
  remotes : List String
  unsaved : Bool
  inProgress : Bool

/-- Where a command or a state write fails. -/
inductive Site where
  | isRepo
  | checkRefFormat
  | nameRead
  | newLedgerRead
  | currentRead
  | ledgerRead
  | atRead
  | firstParents
  | foldedRead
  | pendingRead
  | gitDir
  | statusRead
  | spine
  | folds (i : ℕ)
  | saveTree
  | crystallize
  | remotesRead
  | remoteRead (remote : String)
  | remoteAncestor (remote : String)
  | rangeRead
  | parentsRead (i : ℕ)
  | replayTree (i : ℕ)
  | replayMessage (i : ℕ)
  | replayIdents (i : ℕ)
  | replayCommit (i : ℕ)
  | branchName
  | branchLedger
  | checkoutGitDir
  | checkoutHead
  | checkoutCommit
  | checkoutBefore
  | checkout
  | checkoutAfter
  | rewind
  | record
  | lastSave
  deriving DecidableEq

/-- What a fork is refused or fails with. -/
inductive GitError where
  | domain (message : String)
  | guardrail (message : String)
  /-- A command failed. -/
  | command (site : Site)
  /-- A command failed and what undoes it did not take effect. -/
  | transaction (action : String)
  deriving DecidableEq

/-- What a fork runs in: which commands fail, the protected branches, who commits now, and
how a commit's id is shortened. -/
structure Env where
  fails : Site → Bool
  isProtected : String → Bool
  now : Ident
  short : Commit → String

/-- Raise `e` where `refused`. -/
def refuseIf (refused : Bool) (e : GitError) : Except GitError Unit :=
  if refused then .error e else .ok ()

/-! ### Names -/

/-- `LEDGER_SUFFIX`. -/
def ledgerSuffix : String := "-save"

/-- `ledger_name`. -/
def ledgerName (working : String) : String := working ++ ledgerSuffix

/-- `working_name` is not `None`. -/
def isLedgerName (branch : String) : Bool :=
  ledgerSuffix.toList.isSuffixOf branch.toList && ledgerSuffix.length < branch.length

/-- The parts of a name between its slashes. -/
def nameParts (name : List Char) : List (List Char) := name.splitOn '/'

/-- `_branch_name_problem`. -/
def branchNameProblem (name : String) : Option String :=
  let cs := name.toList
  if name.isEmpty then some "it is empty"
  else if name = "HEAD" ∨ name = "@" then
    some ("git keeps '" ++ name ++ "' for the version open now")
  else if cs.head? = some '-' then some "it starts with '-'"
  else if cs.contains ' ' then some "it contains a space"
  else if cs.any fun c => c.toNat < 32 || c.toNat = 127 then some "it contains a control character"
  else if let some c := ['~', '^', ':', '?', '*', '[', '\\'].find? cs.contains then
    some ("it contains '" ++ String.ofList [c] ++ "'")
  else if let some part :=
    ["..", "@\x7b", "//"].find? fun part => cs.tails.any part.toList.isPrefixOf then
    some ("it contains '" ++ part ++ "'")
  else if cs.head? = some '/' then some "it starts with '/'"
  else if let some ending :=
    ["/", ".lock", "."].find? fun ending => ending.toList.isSuffixOf cs then
    some ("it ends with '" ++ ending ++ "'")
  else if cs.head? = some '.' then some "it starts with '.'"
  else if (nameParts cs).any fun part => part.head? = some '.' then
    some "a part of it starts with '.'"
  else if (nameParts cs).any fun part => ".lock".toList.isSuffixOf part then
    some "a part of it ends with '.lock'"
  else none

/-- `_validate_ref_name`. -/
def validateRefName (name : String) : Except GitError Unit :=
  if name.isEmpty then .error (.domain "Ref name cannot be empty.")
  else if name.toList.head? = some '-' then
    .error (.domain ("Invalid ref name: " ++ name ++ " (must not start with '-')."))
  else if name.toList.any fun c => c.toNat < 32 || c.toNat =
    127 || "~^:?*[]\\".toList.contains c then
    .error (.domain ("Invalid ref name: " ++ name ++ " (contains forbidden characters)."))
  else .ok ()

/-- `_branch_name_refused`. -/
def branchNameRefused (name problem : String) : GitError :=
  .domain ("'" ++ name ++ "' can't be used as a branch name: " ++ problem
    ++ ". Use letters, numbers, dashes and slashes.")

/-- `_assert_eligible_working`. -/
def assertEligibleWorking (env : Env) (branch : String) : Except GitError Unit :=
  if let some problem := branchNameProblem branch then .error (branchNameRefused branch problem)
  else if env.isProtected branch then
    .error (.guardrail ("'" ++ branch
      ++ "' is a protected branch and cannot be used as a working branch."))
  else if isLedgerName branch then
    .error (.guardrail ("'" ++ branch ++ "' ends in '" ++ ledgerSuffix
      ++ "', which Haute keeps for each branch's saves. Choose another name."))
  else .ok ()

/-! ### Reading -/

/-- `rev-parse --verify`: a tag comes before a branch of the same name. -/
def Repo.revParse (repo : Repo) (ref : String) : Option Commit :=
  (repo.tags.get? ref).orElse fun _ => (repo.refs.get? ref).orElse fun _ => repo.others.get? ref

/-- `_rev_parse` at a site: a read that fails finds nothing. -/
def Env.read (env : Env) (site : Site) (repo : Repo) (ref : String) : Option Commit :=
  if env.fails site then none else repo.revParse ref

/-- A command that raises where it fails. -/
def Env.run (env : Env) (site : Site) : Except GitError Unit :=
  if env.fails site then .error (.command site) else .ok ()

/-- A test that says no where it fails. -/
def Env.test (env : Env) (site : Site) (holds : Bool) : Bool := !env.fails site && holds

/-- `_crystallize_milestone`: git keeps a parent named twice once. -/
def crystallizeMilestone (env : Env) (anchor save : Commit) (name : String) :
    Except GitError Commit := do
  env.run .saveTree
  env.run .crystallize
  return .mk save.tree (if anchor = save then [anchor] else [anchor, save])
    ⟨"Start " ++ name ++ " from save " ++ env.short save, env.now, env.now⟩

/-- How many milestones of a spine, from its head, a save lies before. -/
def foldCount (env : Env) (save : Commit) : ℕ → List Commit → ℕ
  | _, [] => 0
  | i, milestone :: spine =>
    if env.test (.folds i) (save.isAncestor milestone) then foldCount env save
      (i + 1) spine + 1 else 0

/-- `_folding_anchor`. -/
def foldingAnchor (env : Env) (workingTip save : Commit) : Except GitError Commit := do
  env.run .spine
  let spine := workingTip.firstParents
  let folds := foldCount env save 0 spine
  match (if folds = 0 then none else spine[folds]?) with
  | none =>
    .error (.domain ("Save " ++ env.short save ++
      " is not folded into a milestone of this branch."))
  | some anchor => .ok anchor

/-- `_commits_in_range`: a read that fails finds no commits. -/
def commitsInRange (env : Env) (start finish : Commit) : List Commit :=
  if env.fails .rangeRead then [] else Commit.range start finish

/-- A commit replayed on `tip`: its tree, its message without the blanks around it, and its
identities and dates. -/
def replayed (tip c : Commit) : Commit :=
  .mk c.tree [tip] { c.details with message := pyStrip c.details.message }

/-- The commands that replay one commit. -/
def replayOne (env : Env) (i : ℕ) (tip c : Commit) : Except GitError Commit := do
  refuseIf ((if env.fails (.parentsRead i) then [] else c.parents).length ≠ 1)
    (.domain ("Create & Move cannot relocate history containing a merge commit. " ++
      "Create a parallel branch instead so the merge topology is preserved."))
  env.run (.replayTree i)
  env.run (.replayMessage i)
  env.run (.replayIdents i)
  env.run (.replayCommit i)
  return replayed tip c

/-- `_replay_onto`. -/
def replayOnto (env : Env) : ℕ → Commit → List Commit → Except GitError Commit
  | _, tip, [] => .ok tip
  | i, tip, c :: cs => do
    let tip ← replayOne env i tip c
    replayOnto env (i + 1) tip cs

/-! ### Planning -/

/-- What a caller asks for. -/
structure ForkRequest where
  name : String
  from? : Option String
  move : Bool
  switch : Bool

/-- A fork to apply: the old ledger and its tip as they were read, the fork point, and the
commits of the new branch and of its ledger. -/
structure Fork where
  ledger : String
  ledgerTip : Commit
  point : Commit
  base : Commit
  newLedgerTip : Commit

/-- Which kind of point a fork is made at. -/
inductive PointKind where
  | milestone
  | folded
  | pending
  deriving DecidableEq

/-- What a fork point is on the current branch. -/
def pointKind (env : Env) (workingTip ledgerTip point : Commit) : Option PointKind :=
  if env.test .firstParents (workingTip.firstParents.contains point) then some .milestone
  else if env.test .foldedRead (point.isAncestor workingTip) then some .folded
  else if env.test .pendingRead (point.isAncestor ledgerTip) then some .pending
  else none

/-- `_assert_new_branch_name`. -/
def assertNewBranchName (env : Env) (name : String) : Except GitError Unit :=
  match branchNameProblem name with
  | some problem => .error (branchNameRefused name problem)
  | none => refuseIf (env.fails .checkRefFormat)
    (branchNameRefused name "git does not accept it as a branch name")

/-- The checks before any read of the branches. -/
def checkRequest (env : Env) (req : ForkRequest) : Except GitError Unit := do
  refuseIf (env.fails .isRepo) (.domain "Not a git repository. Run 'git init' first.")
  assertNewBranchName env req.name
  validateRefName req.name
  assertEligibleWorking env req.name
  refuseIf (req.move && req.switch)
    (.domain "Create & Move already opens the new branch; choose one or the other.")

/-- The tip of the current branch, which must exist. -/
def readWorkingTip (env : Env) (repo : Repo) : Except GitError Commit :=
  match env.read .currentRead repo repo.recorded with
  | none => .error (.domain ("Working branch '" ++ repo.recorded ++ "' does not exist."))
  | some workingTip => .ok workingTip

/-- The tips of the current branch and of its ledger, where the new names are free. -/
def readTips (env : Env) (repo : Repo) (name : String) : Except GitError (Commit × Commit) := do
  refuseIf (env.read .nameRead repo name).isSome
    (.domain ("Branch '" ++ name ++ "' already exists."))
  refuseIf (env.read .newLedgerRead repo (ledgerName name)).isSome
    (.domain ("A branch named '" ++ ledgerName name ++ "' already exists."))
  let workingTip ← readWorkingTip env repo
  return (workingTip, (env.read .ledgerRead repo (ledgerName repo.recorded)).getD workingTip)

/-- What a fork is asked to be made at: the current branch's tip, or what the request
names. -/
def forkPoint (env : Env) (repo : Repo) (req : ForkRequest) : Option Commit :=
  match req.from? with
  | none => env.read .currentRead repo repo.recorded
  | some ref => env.read .atRead repo ref

/-- The commit a fork is made at. -/
def readPoint (env : Env) (repo : Repo) (req : ForkRequest) : Except GitError Commit := do
  req.from?.elim (.ok ()) validateRefName
  match forkPoint env repo req with
  | none => .error (.domain ("Commit '" ++ req.from?.getD "" ++ "' does not exist."))
  | some point => .ok point

/-- What opening the new branch needs: no operation in progress, and nothing unsaved. -/
def checkSwitch (env : Env) (repo : Repo) : Except GitError Unit := do
  env.run .gitDir
  refuseIf repo.inProgress
    (.domain "A git operation is in progress; finish or abort it outside Haute first.")
  refuseIf (env.test .statusRead repo.unsaved)
    (.domain "You have unsaved changes. Save or discard them before opening the new branch.")

/-- A request that opens the new branch needs `checkSwitch`. -/
def checkOpenable (env : Env) (repo : Repo) (req : ForkRequest) : Except GitError Unit :=
  if req.switch then checkSwitch env repo else .ok ()

/-- The commit the new branch starts at. -/
def forkBase (env : Env) (kind : PointKind) (workingTip point : Commit) (name : String) :
    Except GitError Commit :=
  match kind with
  | .milestone => .ok point
  | .pending => crystallizeMilestone env workingTip point name
  | .folded => do
    let anchor ← foldingAnchor env workingTip point
    crystallizeMilestone env anchor point name

/-- A remote holds saves of the ledger that a move to `point` would rewind past. -/
def isPublished (env : Env) (repo : Repo) (ledger : String) (point : Commit)
    (remote : String) : Bool :=
  match env.read (.remoteRead remote) repo ("refs/remotes/" ++ remote ++ "/" ++ ledger) with
  | none => false
  | some tip => !env.test (.remoteAncestor remote) (tip.isAncestor point)

/-- The tip of the new ledger of a move. -/
def movedTip (env : Env) (repo : Repo) (kind : PointKind)
    (workingTip ledgerTip point base : Commit) :
    Except GitError Commit := do
  refuseIf (kind = .milestone && point ≠ workingTip)
    (.domain ("Create & Move is only available at the latest milestone or a pending save — " ++
      "older milestones can only spin off a parallel line."))
  refuseIf ((if env.fails .remotesRead then [] else repo.remotes).any
      (isPublished env repo (ledgerName repo.recorded) point))
    (.guardrail ("This branch's save history is published, and moving from here would rewind " ++
      "it past the shared copy. Spin off a parallel line instead — " ++
      "it leaves this branch untouched."))
  if kind = .milestone then .ok ledgerTip
  else replayOnto env 0 base (commitsInRange env point ledgerTip)

/-- The tip of the new ledger: a parallel line starts at the base of the new branch. -/
def newTip (env : Env) (repo : Repo) (req : ForkRequest) (kind : PointKind)
    (workingTip ledgerTip point base : Commit) : Except GitError Commit :=
  if req.move then movedTip env repo kind workingTip ledgerTip point base else .ok base

/-- The kind of point a fork is made at, where it is on the current branch. -/
def readKind (env : Env) (workingTip ledgerTip point : Commit) : Except GitError PointKind :=
  match pointKind env workingTip ledgerTip point with
  | none => .error (.domain "You can only branch from a milestone or a save on the current branch.")
  | some kind => .ok kind

/-- Everything `create_working_branch` does before it changes a ref. -/
def planFork (env : Env) (repo : Repo) (req : ForkRequest) : Except GitError Fork := do
  checkRequest env req
  let tips ← readTips env repo req.name
  let point ← readPoint env repo req
  let kind ← readKind env tips.1 tips.2 point
  refuseIf (req.move && kind = .folded)
    (.domain ("Create & Move is only available at the latest milestone or a pending save — " ++
      "older saves can only start a parallel line."))
  checkOpenable env repo req
  let base ← forkBase env kind tips.1 point req.name
  let newLedgerTip ← newTip env repo req kind tips.1 tips.2 point base
  return ⟨ledgerName repo.recorded, tips.2, point, base, newLedgerTip⟩

/-! ### Applying -/

namespace Repo

/-- `git branch name commit`. -/
def branch (repo : Repo) (name : String) (commit : Commit) : Option Repo :=
  if name ∈ repo.refs.keys then none else some { repo with refs := repo.refs.insert name commit }

/-- `git branch -f name commit`: not of the branch HEAD is on. -/
def branchForce (repo : Repo) (name : String) (commit : Commit) : Option Repo :=
  if repo.head = .branch name then none else some { repo with refs := repo.refs.insert name commit }

/-- `git branch -D name`: not of the branch HEAD is on. -/
def branchDelete (repo : Repo) (name : String) : Option Repo :=
  if repo.head = .branch name ∨ name ∉ repo.refs.keys then none
  else some { repo with refs := repo.refs.erase name }

/-- `git checkout name`. -/
def checkout (repo : Repo) (name : String) : Option Repo :=
  if name ∈ repo.refs.keys then some { repo with head := .branch name } else none

/-- `write_working_branch`. -/
def record (repo : Repo) (name : String) : Option Repo := some { repo with recorded := name }

end Repo

/-- A command that changes the repository, and raises where it fails or cannot do what it is
asked. -/
def Env.command (env : Env) (site : Site) (f : Repo → Option Repo) : Effect Repo GitError Unit :=
  fun repo =>
  if env.fails site then (.error (.command site), repo)
  else
    match f repo with
    | none => (.error (.command site), repo)
    | some next => (.ok (), next)

/-- What `_rewrite_tree` does before its command: it refuses an operation in progress, and reads
where HEAD is and which files are changed. -/
def Env.beforeCheckout (env : Env) (repo : Repo) : Except GitError Unit := do
  env.run .checkoutGitDir
  refuseIf repo.inProgress
    (.domain "A git operation is in progress; finish or abort it outside Haute first.")
  -- a HEAD that is not read as a branch is read as a commit
  if env.fails .checkoutHead || repo.head.isDetached then env.run .checkoutCommit else .ok ()
  env.run .checkoutBefore

/-- `_rewrite_tree` of a checkout: the changed files are read again whether or not it failed. -/
def rewriteTree (env : Env) (name : String) : Effect Repo GitError Unit := do
  let repo ← Effect.get
  Effect.ofExcept (env.beforeCheckout repo)
  let result ← (env.command .checkout fun r => r.checkout name).attempt
  Effect.ofExcept (env.run .checkoutAfter)
  Effect.ofExcept result

/-- The commands that apply a fork. -/
def applyFork (env : Env) (req : ForkRequest) (fork : Fork) : Effect Repo GitError Unit := do
  env.command .branchName fun r => r.branch req.name fork.base
  env.command .branchLedger fun r => r.branch (ledgerName req.name) fork.newLedgerTip
  if req.move then do
    rewriteTree env (ledgerName req.name)
    env.command .rewind fun r => r.branchForce fork.ledger fork.point
    env.command .record fun r => r.record req.name
  else if req.switch then do
    rewriteTree env (ledgerName req.name)
    env.command .record fun r => r.record req.name
  else pure ()

/-- A step that undoes, and whether it took effect. -/
def undo (f : Repo → Option Repo) (r : Repo × Bool) : Repo × Bool :=
  match f r.1 with
  | none => (r.1, false)
  | some repo => (repo, r.2)

/-- `_delete_branch_if_present`. -/
def deleteIfPresent (name : String) (r : Repo × Bool) : Repo × Bool :=
  if (r.1.revParse name).isNone then r else undo (fun repo => repo.branchDelete name) r

/-- `_rollback_fork`, and the record put back. -/
def rollbackFork (name ledger : String) (ledgerTip : Commit) (recorded : String) (repo : Repo) :
    Repo × Bool :=
  let r := if repo.head = .branch (ledgerName name) then
      undo (fun r => r.checkout ledger)
        (undo (fun r => r.branchForce ledger ledgerTip) (repo, true))
    else (repo, true)
  undo (fun r => r.record recorded) (deleteIfPresent name (deleteIfPresent (ledgerName name) r))

/-- What a fork answers. -/
structure ForkResponse where
  workingBranch : String
  moved : Bool
  switched : Bool
  lastSave : Option Commit

/-- `create_working_branch`, of a clone with a recorded working branch. -/
def createWorkingBranch (env : Env) (repo : Repo) (req : ForkRequest) :
    Except GitError ForkResponse × Repo :=
  match planFork env repo req with
  | .error e => (.error e, repo)
  | .ok fork =>
    match applyFork env req fork repo with
    | (.error e, left) =>
      let (undone, complete) := rollbackFork req.name fork.ledger fork.ledgerTip repo.recorded left
      (.error (if complete then e
        else .transaction (if req.move then "Creating and moving to the branch"
          else "Creating the branch")), undone)
    | (.ok _, left) =>
      (.ok ⟨req.name, req.move, req.move || req.switch,
        (env.read .lastSave left (ledgerName req.name)).orElse fun _ =>
          env.read .lastSave left req.name⟩, left)

end Haute.Git
