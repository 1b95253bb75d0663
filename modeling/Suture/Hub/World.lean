import Mathlib.Logic.Function.Basic
import Suture.Hub.Client

/-!
# A hub and its clients

Requests and answers travel on their own, so that the commands of the clients overlap in
any way. A client may edit its repository at any time.
-/

namespace Suture.Hub
set_option autoImplicit false
open Foundation Common Patches

variable {κ H : Type} [DecidableEq κ] [LinearOrder H] (parentsOf : H → List H)

/-- An id is a hash of the parents and the rest; `parentsOf` reads them off the id. -/
structure Authored where
  patch : Patch H
  hashed : patch.parentIds = parentsOf patch.id

/-- What commits and other local work come to. -/
inductive Edit where
  | storePatch (authored : Authored parentsOf)
  | setBranch (name : BranchName) (target : H)
  | deleteBranch (name : BranchName)
  | setHead (headBranch : Option String) (detachedHead : Option H)

variable {parentsOf}

namespace Client

/-- A patch is accepted once, on top of patches that are there. -/
def edit (c : Client H) : Edit parentsOf → Client H
  | .storePatch authored =>
    if c.patches.contains authored.patch.id = false ∧
        ∀ p ∈ authored.patch.parentIds, c.patches.contains p = true then
      { c with patches := c.patches.insert authored.patch.id authored.patch }
    else c
  | .setBranch name target =>
    if c.patches.contains target then { c with branches := c.branches.insert name.asStr target }
    else c
  | .deleteBranch name => { c with branches := c.branches.erase name.asStr }
  | .setHead headBranch detachedHead =>
    { c with headBranch := headBranch, detachedHead := detachedHead }

/-- A repository with only its first patch. -/
def init (root : Patch H) : Client H :=
  { patches := SortedMap.empty.insert root.id root
    branches := SortedMap.empty.insert "main" root.id
    headBranch := none, detachedHead := none, lastPushed := none }

end Client

/-- A push on its way, with the HEAD of the repository that the command has opened. -/
structure Push (κ H : Type) where
  client : κ
  request : PushRequest H
  headId : Option H

structure World (κ H : Type) [LinearOrder H] where
  hub : HubStorage H
  clients : κ → Client H
  pushes : List (Push κ H)
  accepted : List (κ × Option H)
  fetches : List (κ × PullRequest H)
  answers : List (κ × PullResponse H)

inductive Event (κ : Type) {H : Type} (parentsOf : H → List H) where
  | edit (i : κ) (e : Edit parentsOf)
  | startPush (i : κ) (branch : Option String)
  | deliverPush (k : Nat)
  | dropPush (k : Nat)
  | finishPush (k : Nat)
  | startFetch (i : κ) (depth : Option Nat)
  | answerFetch (k : Nat) (order : Dag.IterationOrder (Patch H))
  | finishFetch (k : Nat)

namespace World

def setClient (w : World κ H) (i : κ) (c : Client H) : World κ H :=
  { w with clients := Function.update w.clients i c }

def startPush (w : World κ H) (i : κ) (branch : Option String) : World κ H :=
  match (w.clients i).pushRequest branch with
  | none => w
  | some request => { w with pushes := w.pushes ++ [⟨i, request, (w.clients i).head⟩] }

def deliverPush (w : World κ H) (k : Nat) (push : Push κ H) : World κ H :=
  let (result, hub) := w.hub.handlePush push.request
  { w with
    hub := hub
    pushes := w.pushes.eraseIdx k
    accepted :=
      match result with
      | .ok _ => w.accepted ++ [(push.client, push.headId)]
      | .error _ => w.accepted }

def next (w : World κ H) : Event κ parentsOf → World κ H
  | .edit i e => w.setClient i ((w.clients i).edit e)
  | .startPush i branch => w.startPush i branch
  | .deliverPush k =>
    match w.pushes[k]? with
    | none => w
    | some push => w.deliverPush k push
  | .dropPush k => { w with pushes := w.pushes.eraseIdx k }
  | .finishPush k =>
    match w.accepted[k]? with
    | none => w
    | some (i, headId) =>
      { w.setClient i ((w.clients i).recordPush headId) with accepted := w.accepted.eraseIdx k }
  | .startFetch i depth =>
    { w with fetches := w.fetches ++ [(i, ⟨(w.clients i).listBranches, depth⟩)] }
  | .answerFetch k order =>
    match w.fetches[k]? with
    | none => w
    | some (i, request) =>
      { w with
        fetches := w.fetches.eraseIdx k
        answers := w.answers ++ [(i, handlePull order.arrange w.hub request)] }
  | .finishFetch k =>
    match w.answers[k]? with
    | none => w
    | some (i, response) =>
      { w.setClient i ((w.clients i).applyFetch response) with answers := w.answers.eraseIdx k }

/-- An empty hub, and clients with a first patch each. -/
def init (roots : κ → Patch H) (protectedBranches : List String) : World κ H :=
  { hub := ⟨.empty, .empty, protectedBranches⟩, clients := fun i => .init (roots i), pushes := [], accepted := []
    fetches := [], answers := [] }

end World
end Suture.Hub
