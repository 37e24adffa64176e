import Kubeast.Foundation.Sha256
import Kubeast.Foundation.Sorted
import Kubeast.Foundation.Text
import Kubeast.Webhook.Deliveries
import Mathlib.Data.String.Basic

/-! `FromPoll` (`internal/signals/signals.go`): what two polls of a repository say has changed, as
the events a webhook would have sent. -/
namespace Kubeast.Signals
open Sorted

structure PullRequest where
  number : ℤ
  headSHA : String
  base : String
  fork : Bool

/-- What polling compares between two polls of a repository (`internal/github/graphql.go`). -/
structure RepoHeads where
  repo : String
  repoID : ℤ
  archived : Bool
  missing : Bool
  branches : Dict String String
  tags : Dict String String
  pullRequests : List PullRequest
  truncated : Bool
  /-- `addRefs` takes no ref without a commit. -/
  commits : ∀ r ∈ branches.rows, r.2 ≠ ""
  /-- A pull request is listed once. -/
  numbers : (pullRequests.map PullRequest.number).Nodup

/-- What polling last saw of a repository. -/
structure Seen where
  branches : Dict String String
  tags : Dict String String
  /-- Number to head commit. -/
  pullRequests : Dict ℤ String

inductive Kind
  | push
  | pullRequest
deriving DecidableEq

structure Event where
  delivery : String
  kind : Kind
  action : String
  installation : ℤ
  repoID : ℤ
  repo : String
  ref : String
  sha : String
  headRef : String
  number : ℤ
  fork : Bool

def delivery (repoID : ℤ) (ref sha : String) : String :=
  let text := toString repoID ++ "\x00" ++ ref ++ "\x00" ++ sha
  "poll-" ++ Hex.encode ((Sha256.sha256 text.toByteArray.data.toList).take 16)

/-- The events of the refs under `space` that are new or point elsewhere, by name. -/
def pushes (h : RepoHeads) (installation : ℤ) (space : String) (refs prev : Dict String String) :
    List Event :=
  ((sortBy Prod.fst refs.rows).filter fun r => prev.index r.1 != r.2).map fun r =>
    { delivery := delivery h.repoID (space ++ r.1) r.2, kind := .push, action := ""
      installation, repoID := h.repoID, repo := h.repo, ref := space ++ r.1, sha := r.2
      headRef := "", number := 0, fork := false }

def pullRef (number : ℤ) : String := "refs/pull/" ++ toString number ++ "/head"

/-- The event of a pull request that is new or whose head moved. -/
def pullEvent (h : RepoHeads) (installation : ℤ) (prev : Dict ℤ String) (pr : PullRequest) :
    Option Event :=
  let old := prev.get pr.number
  if (old.any fun r => r.2 == pr.headSHA) = true then none else some
    { delivery := delivery h.repoID (pullRef pr.number) pr.headSHA, kind := .pullRequest
      action := if old.isSome then "synchronize" else "opened"
      installation, repoID := h.repoID, repo := h.repo, ref := "refs/heads/" ++ pr.base
      sha := pr.headSHA, headRef := pullRef pr.number, number := pr.number, fork := pr.fork }

def numbered (prs : List PullRequest) : Dict ℤ String :=
  prs.foldl (fun m pr => m.set pr.number pr.headSHA) Table.empty

def fromPoll (prev : Option Seen) (h : RepoHeads) (installation : ℤ) : List Event × Option Seen :=
  if h.archived || h.missing then ([], prev) else
  let now : Seen := ⟨h.branches, h.tags, numbered h.pullRequests⟩
  match prev with
  | none => ([], some now)
  | some prev =>
    let now := if h.truncated then
      { now with branches := now.branches.merge prev.branches
                 pullRequests := now.pullRequests.merge prev.pullRequests } else now
    (pushes h installation "refs/heads/" h.branches prev.branches ++
      pushes h installation "refs/tags/" h.tags prev.tags ++
      (sortBy PullRequest.number h.pullRequests).filterMap (pullEvent h installation prev.pullRequests),
      some now)

/-- A poll: what GitHub answered, and the installation asked for. -/
structure Poll where
  heads : RepoHeads
  installation : ℤ

/-- The events of a history of polls, `Seen` handed from each to the next. -/
def polled : Option Seen → List Poll → List Event
  | _, [] => []
  | prev, p :: ps =>
    (fromPoll prev p.heads p.installation).1 ++
      polled (fromPoll prev p.heads p.installation).2 ps

/-- What is watched for changes: a branch, or the head of a pull request. -/
inductive Head
  | branch (name : String)
  | pull (number : ℤ)
deriving DecidableEq

def Head.ref : Head → String
  | .branch name => "refs/heads/" ++ name
  | .pull number => pullRef number

/-- The head an event is about; a pushed tag is none. -/
def Event.head (e : Event) : Option Head :=
  match e.kind with
  | .push =>
      if Text.hasPrefix e.ref "refs/heads/" then
        some (.branch (String.ofList (e.ref.toList.drop "refs/heads/".length)))
      else none
  | .pullRequest => some (.pull e.number)

section Changes

/-- The value of a head in an answer. -/
def shown (h : RepoHeads) : Head → Option String
  | .branch name => (h.branches.get name).map Prod.snd
  | .pull number => (h.pullRequests.find? fun pr => decide (pr.number = number)).map PullRequest.headSHA

/-- What is known of a head after an answer: nothing before the first one, then its value if it has
one. A truncated answer keeps what it does not list. -/
def learn (x : Head) (known : Option (Option String)) (h : RepoHeads) : Option (Option String) :=
  if h.archived || h.missing then known
  else some ((shown h x).or (if h.truncated then known.join else none))

/-- The value an answer shows of a head, where it is not the one known. -/
def changeIn (x : Head) (known : Option (Option String)) (h : RepoHeads) : Option String :=
  if h.archived || h.missing then none
  else known.bind fun was => (shown h x).filter fun sha => was != some sha

/-- The changes of one head over a history. -/
def changesOf (x : Head) : Option (Option String) → List Poll → List String
  | _, [] => []
  | known, p :: ps => (changeIn x known p.heads).toList ++ changesOf x (learn x known p.heads) ps

structure Change where
  repoID : ℤ
  head : Head
  sha : String
deriving DecidableEq

def Change.delivery (c : Change) : String := Signals.delivery c.repoID c.head.ref c.sha

/-- The heads an answer lists: branches by name, then pull requests by number. -/
def listed (h : RepoHeads) : List Head :=
  (sortBy Prod.fst h.branches.rows).map (fun r => Head.branch r.1) ++
    (sortBy PullRequest.number h.pullRequests).map fun pr => Head.pull pr.number

def changesIn (known : Head → Option (Option String)) (h : RepoHeads) : List Change :=
  (listed h).filterMap fun x => (changeIn x (known x) h).map fun sha => ⟨h.repoID, x, sha⟩

/-- The changes of all heads over a history, in the order in which the answers list them. -/
def changes : (Head → Option (Option String)) → List Poll → List Change
  | _, [] => []
  | known, p :: ps =>
    changesIn known p.heads ++ changes (fun x => learn x (known x) p.heads) ps

def Event.change (e : Event) : Option Change := e.head.map fun x => ⟨e.repoID, x, e.sha⟩

/-- The values that the events of a head carry. -/
def shas (x : Head) (events : List Event) : List String :=
  (events.filter fun e => decide (e.head = some x)).map Event.sha

end Changes

section OnePoll
variable {h : RepoHeads} {e : Event}

theorem head_branch (hkind : e.kind = .push) {name : String} (href : e.ref = "refs/heads/" ++ name) :
    e.head = some (.branch name) := by
  have hname : e.ref.toList = "refs/heads/".toList ++ name.toList := by
    rw [href, String.toList_append]
  rw [Event.head, hkind]
  dsimp only
  rw [if_pos (Text.hasPrefix_iff.mpr ⟨_, hname⟩), hname]
  congr 2
  exact String.ofList_toList

theorem head_tag (hkind : e.kind = .push) {name : String} (href : e.ref = "refs/tags/" ++ name) :
    e.head = none := by
  have hname : e.ref.toList = "refs/tags/".toList ++ name.toList := by
    rw [href, String.toList_append]
  rw [Event.head, hkind]
  dsimp only
  rw [if_neg]
  intro hbranch
  obtain ⟨t, ht⟩ := Text.hasPrefix_iff.mp hbranch
  rw [hname] at ht
  simp at ht

theorem head_pull (hkind : e.kind = .pullRequest) : e.head = some (.pull e.number) := by
  rw [Event.head, hkind]

/-- What the record holds of a head. -/
def Seen.value (s : Seen) : Head → Option String
  | .branch name => (s.branches.get name).map Prod.snd
  | .pull number => (s.pullRequests.get number).map Prod.snd

def known (prev : Option Seen) (x : Head) : Option (Option String) := prev.map fun s => s.value x

theorem get_numbered {prs : List PullRequest} (hnodup : (prs.map PullRequest.number).Nodup)
    (number : ℤ) : ((numbered prs).get number).map Prod.snd =
      (prs.find? fun pr => decide (pr.number = number)).map PullRequest.headSHA := by
  cases hfind : prs.find? fun pr => decide (pr.number = number) with
  | none =>
    have hnone : (numbered prs).get number = none := by
      rw [← Option.not_isSome_iff_eq_none, numbered, Dict.get_foldl_set_isSome]
      simpa using hfind
    rw [hnone]
    rfl
  | some pr =>
    have hnumber : pr.number = number := by simpa using List.find?_some hfind
    have hmem := List.mem_of_find?_eq_some hfind
    obtain ⟨r, hr⟩ := Option.isSome_iff_exists.mp
      (Dict.get_foldl_set_isSome (m := Table.empty) (g := PullRequest.headSHA) (k := number)
        |>.mpr (Or.inr ⟨pr, hmem, hnumber⟩))
    have hindex := Dict.index_foldl_set_of_mem (m := Table.empty) (g := PullRequest.headSHA) hnodup hmem
    rw [hnumber, Dict.index, hr] at hindex
    rw [numbered, hr, Option.map_some, Option.map_some]
    exact congrArg some hindex

theorem shown_branch {r : String × String} (hr : r ∈ h.branches.rows) :
    shown h (.branch r.1) = some r.2 := by
  rw [shown, Table.get_of_mem hr]
  rfl

theorem shown_pull {pr : PullRequest} (hpr : pr ∈ h.pullRequests) :
    shown h (.pull pr.number) = some pr.headSHA := by
  rw [shown]
  cases hfind : h.pullRequests.find? fun other => decide (other.number = pr.number) with
  | none => simpa using List.find?_eq_none.mp hfind pr hpr
  | some other =>
    have hnumber : other.number = pr.number := by simpa using List.find?_some hfind
    rw [List.inj_on_of_nodup_map h.numbers (List.mem_of_find?_eq_some hfind) hpr hnumber]
    rfl

theorem changesIn_eq_nil {known : Head → Option (Option String)}
    (hnone : ∀ x, changeIn x (known x) h = none) : changesIn known h = [] := by
  rw [changesIn, List.filterMap_eq_nil_iff]
  intro x _
  rw [hnone, Option.map_none]

/-- A poll tells of exactly what its answer changes. -/
theorem changes_fromPoll (prev : Option Seen) (h : RepoHeads) (installation : ℤ) :
    (fromPoll prev h installation).1.filterMap Event.change = changesIn (known prev) h := by
  unfold fromPoll
  by_cases hgone : (h.archived || h.missing) = true
  · rw [if_pos hgone, changesIn_eq_nil fun x => by rw [changeIn, if_pos hgone]]
    rfl
  · rw [if_neg hgone]
    cases prev with
    | none =>
      rw [changesIn_eq_nil fun x => by rw [changeIn, if_neg hgone]; rfl]
      rfl
    | some s =>
      dsimp only
      rw [List.filterMap_append, List.filterMap_append, changesIn, listed, List.filterMap_append,
        List.filterMap_map, List.filterMap_map]
      congr 1
      · have htags : (pushes h installation "refs/tags/" h.tags s.tags).filterMap Event.change = [] := by
          rw [pushes, List.filterMap_map, List.filterMap_eq_nil_iff]
          intro r _
          rw [Function.comp_apply, Event.change, head_tag rfl rfl]
          rfl
        rw [htags, List.append_nil, pushes, List.filterMap_map, List.filterMap_filter]
        apply List.filterMap_congr
        intro r hr
        rw [mem_sortBy] at hr
        rw [Function.comp_apply, Function.comp_apply, Event.change, head_branch rfl rfl, changeIn,
          if_neg hgone, shown_branch hr]
        have hsha := h.commits r hr
        cases hget : s.branches.get r.1 with
        | none =>
          rw [Dict.index_of_get_none hget]
          simp [known, Seen.value, hget, Ne.symm hsha, Option.filter]
        | some old =>
          have hold : s.branches.get r.1 = some (old.1, old.2) := hget
          rw [Dict.index_of_get hold]
          by_cases hsame : old.2 = r.2 <;> simp [known, Seen.value, hget, hsame, Option.filter]
      · rw [List.filterMap_filterMap]
        apply List.filterMap_congr
        intro pr hpr
        rw [mem_sortBy] at hpr
        rw [Function.comp_apply, changeIn, if_neg hgone, shown_pull hpr, pullEvent]
        cases hget : s.pullRequests.get pr.number with
        | none => simp [known, Seen.value, hget, Option.filter, Event.change, head_pull]
        | some old =>
          by_cases hsame : old.2 = pr.headSHA <;>
            simp [known, Seen.value, hget, hsame, Option.filter, Event.change, head_pull]

/-- The record is what is known of the heads. -/
theorem known_fromPoll (prev : Option Seen) (h : RepoHeads) (installation : ℤ) (x : Head) :
    known (fromPoll prev h installation).2 x = learn x (known prev x) h := by
  unfold fromPoll learn
  by_cases hgone : (h.archived || h.missing) = true
  · rw [if_pos hgone, if_pos hgone]
  · rw [if_neg hgone, if_neg hgone]
    have hpulls := get_numbered h.numbers
    cases prev with
    | none =>
      cases x with
      | branch name => simp [known, Seen.value, shown]
      | pull number => simp [known, Seen.value, shown, hpulls]
    | some s =>
      dsimp only
      cases h.truncated <;> cases x <;>
        simp [known, Seen.value, shown, hpulls, Option.map_or]

/-- The events of a history are its changes, one for one and in order. -/
theorem changes_polled (prev : Option Seen) (ps : List Poll) :
    (polled prev ps).filterMap Event.change = changes (known prev) ps := by
  induction ps generalizing prev with
  | nil => rfl
  | cons p ps ih =>
    rw [polled, changes, List.filterMap_append, changes_fromPoll, ih]
    congr 2
    funext x
    exact known_fromPoll prev p.heads p.installation x

end OnePoll
end Kubeast.Signals
