import Suture.Foundation.Directories
import Suture.Wire.Scopes

/-!
# Where large files are

An object is in a directory of its repository, below two bytes of its id. What a repository and
an object may be called is checked letter by letter; which names of directories come out is not.
-/

namespace Suture.Wire
set_option autoImplicit false
open Foundation

/-! ### Requests and answers -/

inductive LfsOperation where
  | upload
  | download
deriving DecidableEq, Repr

structure LfsObjectRef where
  oid : String
  size : Nat
deriving DecidableEq, Repr

structure LfsBatchRequest where
  repoId : String
  objects : List LfsObjectRef
  operation : LfsOperation
deriving DecidableEq, Repr

inductive LfsAction where
  | none
  | upload
  | download
deriving DecidableEq, Repr

structure LfsObjectAction where
  oid : String
  size : Nat
  action : LfsAction
  href : Option String
deriving DecidableEq, Repr

/-- The files, and which letters and digits there are beyond ASCII. -/
structure LfsEnv extends HubEnv where
  unicodeAlphanumeric : Char → Bool
  fileExists : String → Bool
  readFile : String → Option Bytes
  writeFile : String → Bytes → Option String

inductive LfsStatus where
  | auth (status : Status)
  | badRequest
  | serviceUnavailable
deriving DecidableEq, Repr

inductive LfsAnswer where
  | actions (objects : List LfsObjectAction)
  | uploaded (oid : String) (size : Nat)
  | content (data : Bytes)
  | notFound
  | failed (message : String)
deriving DecidableEq, Repr

/-- A handler refuses, panics, or touches files and answers. -/
inductive LfsOutcome where
  | refused (status : LfsStatus) (message : String)
  | panicked
  | answered (paths : List String) (answer : LfsAnswer)
deriving DecidableEq, Repr

/-! ### Paths of objects -/

/-- The first bytes of a text; it panics past the end and inside a character. -/
def sliceTo : Nat → List Char → Option (List Char)
  | n, [] => if n = 0 then some [] else none
  | n, c :: rest =>
    if n = 0 then some []
    else if c.utf8Size ≤ n then (sliceTo (n - c.utf8Size) rest).map fun cs => c :: cs
    else none

def byteLength (cs : List Char) : Nat := (cs.map Char.utf8Size).sum

def oidPrefix (oid : String) : Option String :=
  (sliceTo (min 2 (byteLength oid.toList)) oid.toList).map String.ofList

def repoDir (lfsDir repoId : String) : String := Path.join lfsDir repoId

def objectsDir (lfsDir repoId : String) : String := Path.join (repoDir lfsDir repoId) "objects"

def objectPath (lfsDir repoId oid : String) : Option String :=
  (oidPrefix oid).map fun pre => Path.join (Path.join (objectsDir lfsDir repoId) pre) oid

/-! ### The handlers -/

section Handlers
variable (env : LfsEnv)

def isAlphanumeric (c : Char) : Bool :=
  if c.toNat < 128 then c.isAlphanum else env.unicodeAlphanumeric c

def isSafe (s : String) : Bool :=
  s.toList.all fun c => isAlphanumeric env c || c = '-' || c = '_' || c = '.'

def isOid (oid : String) : Bool := oid.toList.all isHexDigit && decide (byteLength oid.toList ≤ 128)

def lfsAction (operation : LfsOperation) (path : String) : LfsAction :=
  match operation, env.fileExists path with
  | .upload, true => .none
  | .upload, false => .upload
  | .download, true => .download
  | .download, false => .none

/-- Objects whose id is none are left out. -/
def batchObjects (lfsDir : String) (req : LfsBatchRequest) :
    List LfsObjectRef → Option (List (String × LfsObjectAction))
  | [] => some []
  | obj :: rest =>
    if isOid obj.oid then
      match objectPath lfsDir req.repoId obj.oid with
      | none => none
      | some path =>
        let action := lfsAction env req.operation path
        let href :=
          if action = .none then none
          else some ("/lfs/objects/" ++ req.repoId ++ "/" ++ obj.oid)
        (batchObjects lfsDir req rest).map fun actions =>
          (path, ⟨obj.oid, obj.size, action, href⟩) :: actions
    else batchObjects lfsDir req rest

/-- The directory of the repository is created first. -/
def lfsBatch (lfsDataDir : Option String) (req : LfsBatchRequest) : LfsOutcome :=
  if isSafe env req.repoId then
    match lfsDataDir with
    | none => .refused .serviceUnavailable "LFS storage not configured on this hub"
    | some lfsDir =>
      match batchObjects env lfsDir req req.objects with
      | none => .panicked
      | some actions =>
        .answered (objectsDir lfsDir req.repoId :: actions.map Prod.fst)
          (.actions (actions.map Prod.snd))
  else
    .refused .badRequest "invalid repo_id: must contain only alphanumeric characters, hyphens, underscores, and dots"

def lfsUpload (h : HubServer) (authorization : Option String) (lfsDataDir : Option String)
    (repoId oid : String) (body : Bytes) : LfsOutcome :=
  match checkAuth env.toHubEnv h authorization with
  | .error status => .refused (.auth status) "unauthorized"
  | .ok _ =>
    if isSafe env repoId && isSafe env oid then
      match lfsDataDir with
      | none => .refused .serviceUnavailable "LFS storage not configured"
      | some lfsDir =>
        let hashHex := lowerHex (env.sha256 body)
        if body = [] then .refused .badRequest "empty body"
        else if hashHex = oid then
          match objectPath lfsDir repoId oid with
          | none => .panicked
          | some path =>
            .answered [path] <|
              match env.writeFile path body with
              | none => .uploaded oid body.length
              | some e => .failed e
        else .refused .badRequest ("hash mismatch: expected " ++ oid ++ ", got " ++ hashHex)
    else .refused .badRequest "invalid repo_id or oid"

def lfsDownload (lfsDataDir : Option String) (repoId oid : String) : LfsOutcome :=
  if isSafe env repoId && isSafe env oid then
    match lfsDataDir with
    | none => .refused .serviceUnavailable "LFS storage not configured"
    | some lfsDir =>
      match objectPath lfsDir repoId oid with
      | none => .panicked
      | some path =>
        .answered [path] <|
          match env.readFile path with
          | none => .notFound
          | some data => .content data
  else .refused .badRequest "invalid repo_id or oid"

end Handlers

/-! ### The first two bytes -/

/-- There are less than two bytes, or a character ends at the second. -/
def TwoBytesApart : List Char → Prop
  | [] => True
  | [c] => c.utf8Size ≤ 2
  | c :: d :: _ => c.utf8Size = 2 ∨ c.utf8Size = 1 ∧ d.utf8Size = 1

@[simp] theorem sliceTo_zero (cs : List Char) : sliceTo 0 cs = some [] := by cases cs <;> rfl

theorem sliceTo_cons {n : Nat} (hn : n ≠ 0) (c : Char) (rest : List Char) :
    sliceTo n (c :: rest) =
      if c.utf8Size ≤ n then (sliceTo (n - c.utf8Size) rest).map fun cs => c :: cs else none := by
  rw [sliceTo, if_neg hn]

theorem slice_single (c : Char) :
    sliceTo (min 2 (byteLength [c])) [c] = if c.utf8Size ≤ 2 then some [c] else none := by
  have hc := c.utf8Size_pos
  have hlength : byteLength [c] = c.utf8Size := by simp [byteLength]
  rw [hlength, sliceTo_cons (by omega)]
  by_cases hsmall : c.utf8Size ≤ 2
  · rw [if_pos hsmall, if_pos (by omega), Nat.min_eq_right hsmall, Nat.sub_self, sliceTo_zero]
    rfl
  · rw [if_neg hsmall, if_neg (by omega)]

theorem slice_pair (c d : Char) (rest : List Char) :
    sliceTo (min 2 (byteLength (c :: d :: rest))) (c :: d :: rest) =
      if c.utf8Size = 2 then some [c]
      else if c.utf8Size = 1 ∧ d.utf8Size = 1 then some [c, d] else none := by
  have hc := c.utf8Size_pos
  have hd := d.utf8Size_pos
  have hlength : min 2 (byteLength (c :: d :: rest)) = 2 := by
    rw [byteLength, List.map_cons, List.map_cons, List.sum_cons, List.sum_cons]
    omega
  rw [hlength, sliceTo_cons (by omega)]
  by_cases htwo : c.utf8Size = 2
  · rw [if_pos htwo, if_pos (by omega), htwo, Nat.sub_self, sliceTo_zero]
    rfl
  rw [if_neg htwo]
  by_cases hone : c.utf8Size = 1
  · rw [if_pos (by omega), hone, sliceTo_cons (by omega)]
    by_cases hd' : d.utf8Size = 1
    · rw [if_pos (by omega), if_pos ⟨rfl, hd'⟩, hd', Nat.sub_self, sliceTo_zero]
      rfl
    · rw [if_neg (by omega), if_neg (fun hand => hd' hand.2)]
      rfl
  · rw [if_neg (by omega), if_neg (fun hand => hone hand.1)]

theorem slice_isSome_iff (cs : List Char) :
    (sliceTo (min 2 (byteLength cs)) cs).isSome = true ↔ TwoBytesApart cs := by
  rcases cs with _ | ⟨c, _ | ⟨d, rest⟩⟩
  · exact ⟨fun _ => trivial, fun _ => rfl⟩
  · rw [slice_single, TwoBytesApart]
    split <;> simp_all
  · rw [slice_pair, TwoBytesApart]
    split
    · simp_all
    · split <;> simp_all

/-- The first two bytes stay, go up, or are a name; the whole text then does the same. -/
inductive Leads : List Char → List Char → Prop where
  | stay {cs : List Char} (h : cs = [] ∨ cs = ['.']) : Leads cs cs
  | up (rest : List Char) : Leads ('.' :: '.' :: rest) ['.', '.']
  | name {cs pre : List Char} (hpart : pre <+: cs) (hpre : IsName (.ofList pre))
      (hcs : IsName (.ofList cs)) (hup : ¬ ['.', '.'] <+: cs) : Leads cs pre

theorem isName_ofList {cs : List Char} :
    IsName (.ofList cs) ↔ cs ≠ [] ∧ cs ≠ ['.'] ∧ cs ≠ ['.', '.'] := by
  have hlist : ∀ cs' : List Char, String.ofList cs = String.ofList cs' ↔ cs = cs' :=
    fun _ => String.ofList_inj
  exact and_congr (not_congr (hlist [])) (and_congr (not_congr (hlist ['.']))
    (not_congr (hlist ['.', '.'])))

theorem leads_of_slice {cs pre : List Char} (h : sliceTo (min 2 (byteLength cs)) cs = some pre) :
    Leads cs pre := by
  have hdot : ('.' : Char).utf8Size = 1 := rfl
  rcases cs with _ | ⟨c, _ | ⟨d, rest⟩⟩
  · cases h
    exact .stay (.inl rfl)
  · rw [slice_single] at h
    split at h
    · cases h
      by_cases hc : c = '.'
      · exact .stay (.inr (by rw [hc]))
      · have hname : IsName (.ofList [c]) := isName_ofList.mpr ⟨nofun, by simpa using hc, nofun⟩
        exact .name List.prefix_rfl hname hname (by simp)
    · cases h
  · rw [slice_pair] at h
    split at h
    · rename_i htwo
      cases h
      have hc : c ≠ '.' := by
        rintro rfl
        omega
      refine .name ⟨d :: rest, rfl⟩ (isName_ofList.mpr ⟨nofun, by simpa using hc, nofun⟩)
        (isName_ofList.mpr ⟨nofun, nofun, ?_⟩) ?_
      · rintro heq
        exact hc (List.cons.inj heq).1
      · rintro ⟨_, heq⟩
        exact hc (List.cons.inj heq).1.symm
    · split at h
      · cases h
        by_cases hup : c = '.' ∧ d = '.'
        · obtain ⟨rfl, rfl⟩ := hup
          exact .up rest
        · have hne : ∀ rest', c :: d :: rest ≠ '.' :: '.' :: rest' := by
            intro rest' heq
            simp only [List.cons.injEq] at heq
            exact hup ⟨heq.1, heq.2.1⟩
          refine .name ⟨rest, rfl⟩ (isName_ofList.mpr ⟨nofun, nofun, ?_⟩)
            (isName_ofList.mpr ⟨nofun, nofun, hne []⟩) ?_
          · rintro heq
            simp only [List.cons.injEq] at heq
            exact hup ⟨heq.1, heq.2.1⟩
          · rintro ⟨rest', heq⟩
            exact hne rest' heq.symm
      · cases h

/-! ### Where the paths lead -/

/-- The names that lead to the objects of a repository. -/
def ownObjects (cwd : Place) (lfsDir repoId : String) : List String :=
  (Path.resolve cwd lfsDir).names ++ [repoId, "objects"]

def Inside (cwd : Place) (lfsDir repoId path : String) : Prop :=
  ownObjects cwd lfsDir repoId <+: (Path.resolve cwd path).names

/-- There is no panic, and all paths lead into the directory of objects of the repository. -/
def LfsOutcome.Confined (cwd : Place) (lfsDir repoId : String) : LfsOutcome → Prop
  | .refused .. => True
  | .panicked => False
  | .answered paths _ => ∀ path ∈ paths, Inside cwd lfsDir repoId path

def LfsOutcome.Accepted (outcome : LfsOutcome) : Prop :=
  ∀ status message, outcome ≠ .refused status message

theorem not_accepted (status : LfsStatus) (message : String) :
    ¬ (LfsOutcome.refused status message).Accepted := fun h => h status message rfl

section Where
variable {cwd : Place} {lfsDir repoId oid : String}

theorem not_inside (h : ¬ IsName repoId) (path : String) : ¬ Inside cwd lfsDir repoId path :=
  Place.not_below (List.mem_append.mpr (.inr (List.mem_cons_self ..))) h

theorem resolve_objectsDir (hslash : '/' ∉ repoId.toList) : Path.resolve cwd (objectsDir lfsDir repoId) =
    ((Path.resolve cwd lfsDir).enter repoId).enter "objects" := by
  unfold objectsDir repoDir
  rw [Path.resolve_join _ _ (by decide), Path.resolve_join _ _ hslash]

theorem names_objectsDir (hslash : '/' ∉ repoId.toList) (hname : IsName repoId) :
    (Path.resolve cwd (objectsDir lfsDir repoId)).names = ownObjects cwd lfsDir repoId := by
  rw [resolve_objectsDir hslash, Place.enter_name _ (by decide), Place.enter_name _ hname,
    List.append_assoc]
  rfl

theorem not_inside_of_up (place : Place) (hplace : place.names = ownObjects cwd lfsDir repoId)
    {name : String} (hname : "..".toList <+: name.toList) :
    ¬ ownObjects cwd lfsDir repoId <+: ((place.enter "..").enter name).names := by
  have hparent : (place.enter "..").names = (Path.resolve cwd lfsDir).names ++ [repoId] := by
    rw [Place.enter_up, Place.names_parent, hplace, ownObjects,
      show [repoId, "objects"] = [repoId] ++ ["objects"] from rfl, ← List.append_assoc,
      List.dropLast_concat]
  have hlength : (ownObjects cwd lfsDir repoId).length = (Path.resolve cwd lfsDir).names.length + 2 := by
    rw [ownObjects, List.length_append]
    rfl
  intro hinside
  by_cases hup : name = ".."
  · have hle := hinside.length_le
    rw [hup, Place.enter_up, Place.names_parent, List.length_dropLast, hparent, hlength,
      List.length_append] at hle
    simp only [List.length_singleton] at hle
    omega
  · obtain ⟨rest, hrest⟩ := hname
    have hcs : name = .ofList ('.' :: '.' :: rest) := by
      rw [← String.ofList_toList (s := name), ← hrest]
      rfl
    have hisName : IsName name := by
      rw [hcs] at hup ⊢
      refine isName_ofList.mpr ⟨nofun, nofun, fun heq => hup ?_⟩
      rw [heq]
    rw [Place.enter_name _ hisName, hparent, List.append_assoc] at hinside
    have heq := List.append_cancel_left (hinside.eq_of_length (by rw [hlength, List.length_append]; rfl))
    have hobjects : "objects" = name := (List.cons.inj (List.cons.inj heq).2).1
    have hhead : "objects".toList.head? = some '.' := by
      rw [hobjects, hcs, String.toList_ofList]
      rfl
    exact absurd hhead (by decide)

theorem slash_of_leads {cs pre : List Char} (h : Leads cs pre) (hslash : '/' ∉ cs) : '/' ∉ pre := by
  cases h with
  | stay => exact hslash
  | up rest => decide
  | name hpart => exact fun hmem => hslash (hpart.subset hmem)

/-- The path of an object leads into the directory of objects exactly when the repository has
a name and the id does not begin by going up. -/
theorem inside_objectPath_iff (hrepo : '/' ∉ repoId.toList) (hoid : '/' ∉ oid.toList) {path : String}
    (h : objectPath lfsDir repoId oid = some path) :
    Inside cwd lfsDir repoId path ↔ IsName repoId ∧ ¬ "..".toList <+: oid.toList := by
  obtain ⟨pre, hpre, rfl⟩ := Option.map_eq_some_iff.mp h
  obtain ⟨cs, hcs, rfl⟩ := Option.map_eq_some_iff.mp hpre
  have hleads := leads_of_slice hcs
  have hslash : '/' ∉ (String.ofList cs).toList := by
    rw [String.toList_ofList]
    exact slash_of_leads hleads hoid
  by_cases hname : IsName repoId
  swap
  · exact ⟨fun hinside => absurd hinside (not_inside hname _), fun hand => absurd hand.1 hname⟩
  have hobjects : (Path.resolve cwd (objectsDir lfsDir repoId)).names = ownObjects cwd lfsDir repoId :=
    names_objectsDir hrepo hname
  unfold Inside
  rw [Path.resolve_join _ _ hoid, Path.resolve_join _ _ hslash]
  generalize hplace : Path.resolve cwd (objectsDir lfsDir repoId) = place at hobjects ⊢
  obtain ⟨list, hlist⟩ : ∃ list, oid.toList = list := ⟨_, rfl⟩
  have hofList : oid = .ofList list := by rw [← hlist, String.ofList_toList]
  rw [hlist] at hleads ⊢
  cases hleads with
  | stay hstay =>
    have henter : String.ofList cs = "" ∨ String.ofList cs = "." := by
      rcases hstay with rfl | rfl
      · exact .inl rfl
      · exact .inr rfl
    rw [hofList, Place.enter_stay _ henter, Place.enter_stay _ henter, hobjects]
    refine ⟨fun _ => ⟨hname, ?_⟩, fun _ => List.prefix_rfl⟩
    rcases hstay with rfl | rfl <;> decide
  | up rest =>
    have hup : "..".toList <+: oid.toList := by
      rw [hlist]
      exact ⟨rest, rfl⟩
    exact ⟨fun hinside => absurd hinside (not_inside_of_up place hobjects hup),
      fun hand => absurd ⟨rest, rfl⟩ hand.2⟩
  | name hpart hpre hcs hup =>
    rw [hofList, Place.enter_name _ hcs, Place.enter_name _ hpre, hobjects]
    refine ⟨fun _ => ⟨hname, hup⟩, fun _ => ?_⟩
    rw [List.append_assoc]
    exact List.prefix_append ..

theorem objectPath_isSome_iff (lfsDir repoId oid : String) :
    (objectPath lfsDir repoId oid).isSome = true ↔ TwoBytesApart oid.toList := by
  rw [objectPath, oidPrefix, Option.isSome_map, Option.isSome_map, slice_isSome_iff]

theorem confined_single (hrepo : '/' ∉ repoId.toList) (hoid : '/' ∉ oid.toList) {path : String}
    (h : objectPath lfsDir repoId oid = some path) (answer : LfsAnswer) :
    (LfsOutcome.answered [path] answer).Confined cwd lfsDir repoId ↔
      IsName repoId ∧ ¬ "..".toList <+: oid.toList := by
  rw [LfsOutcome.Confined, List.forall_mem_singleton]
  exact inside_objectPath_iff hrepo hoid h

end Where

/-! ### Which letters there are -/

/-- One byte, and neither a dot nor a separator. -/
def IsPlain (c : Char) : Prop := c.utf8Size = 1 ∧ c ≠ '.' ∧ c ≠ '/'
deriving Decidable

theorem twoBytesApart_of_plain {cs : List Char} (h : ∀ c ∈ cs, IsPlain c) : TwoBytesApart cs := by
  rcases cs with _ | ⟨c, _ | ⟨d, rest⟩⟩
  · trivial
  · rw [TwoBytesApart, (h c (List.mem_cons_self ..)).1]
    omega
  · exact .inr ⟨(h c (List.mem_cons_self ..)).1,
      (h d (List.mem_cons_of_mem _ (List.mem_cons_self ..))).1⟩

theorem not_up_of_plain {cs : List Char} (h : ∀ c ∈ cs, IsPlain c) : ¬ "..".toList <+: cs :=
  fun hpart => (h '.' (hpart.subset (List.mem_cons_self ..))).2.1 rfl

theorem no_slash_of_plain {cs : List Char} (h : ∀ c ∈ cs, IsPlain c) : '/' ∉ cs :=
  fun hmem => (h '/' hmem).2.2 rfl

theorem plain_of_hexDigit {c : Char} (h : isHexDigit c = true) : IsPlain c := by
  have hbound : c.val.toNat ≤ 127 := by
    simp only [isHexDigit, Char.isDigit, Bool.or_eq_true, Bool.and_eq_true, decide_eq_true_eq,
      Char.le_def, UInt32.le_iff_toNat_le, ge_iff_le] at h
    have hnine : '9'.val.toNat = 57 := rfl
    have hf : 'f'.val.toNat = 102 := rfl
    have hF : 'F'.val.toNat = 70 := rfl
    omega
  refine ⟨?_, ?_, ?_⟩
  · unfold Char.utf8Size
    exact if_pos (UInt32.le_iff_toNat_le.mpr hbound)
  · rintro rfl
    exact absurd h (by decide)
  · rintro rfl
    exact absurd h (by decide)

theorem plain_of_isOid {oid : String} (h : isOid oid = true) : ∀ c ∈ oid.toList, IsPlain c :=
  fun c hc => plain_of_hexDigit (List.all_eq_true.mp (Bool.and_eq_true_iff.mp h).1 c hc)

theorem plain_of_lowerHex {data : Bytes} : ∀ c ∈ (lowerHex data).toList, IsPlain c := by
  have hdigit : ∀ n < 16, IsPlain (Nat.digitChar n) := by decide
  intro c hc
  rw [lowerHex, String.toList_ofList] at hc
  obtain ⟨b, -, hb⟩ := List.mem_flatMap.mp hc
  have hbound := b.toNat_lt
  simp only [List.mem_cons, List.not_mem_nil, or_false] at hb
  rcases hb with rfl | rfl
  · exact hdigit _ (by omega)
  · exact hdigit _ (by omega)

theorem no_slash_of_isSafe {env : LfsEnv} {s : String} (h : isSafe env s = true) : '/' ∉ s.toList := by
  intro hmem
  have hslash := List.all_eq_true.mp h '/' hmem
  exact absurd hslash (by simp [isAlphanumeric])

/-! ### The handlers and the paths -/

section Confined
variable (env : LfsEnv) (cwd : Place) (lfsDir : String)

theorem lfsUpload_confined {h : HubServer} {authorization : Option String} {repoId oid : String}
    {body : Bytes}
    (hacc : (lfsUpload env h authorization (some lfsDir) repoId oid body).Accepted) :
    (lfsUpload env h authorization (some lfsDir) repoId oid body).Confined cwd lfsDir repoId ↔
      IsName repoId := by
  revert hacc
  unfold lfsUpload
  cases checkAuth env.toHubEnv h authorization with
  | error status => exact fun hacc => absurd hacc (not_accepted _ _)
  | ok _ =>
    by_cases hsafe : (isSafe env repoId && isSafe env oid) = true
    swap
    · simp only [if_neg hsafe]
      exact fun hacc => absurd hacc (not_accepted _ _)
    obtain ⟨hrepo, hoid⟩ := Bool.and_eq_true_iff.mp hsafe
    by_cases hbody : body = []
    · simp only [if_pos hsafe, if_pos hbody]
      exact fun hacc => absurd hacc (not_accepted _ _)
    by_cases hhash : lowerHex (env.sha256 body) = oid
    swap
    · simp only [if_pos hsafe, if_neg hbody, if_neg hhash]
      exact fun hacc => absurd hacc (not_accepted _ _)
    simp only [if_pos hsafe, if_neg hbody, if_pos hhash]
    intro _
    have hplain : ∀ c ∈ oid.toList, IsPlain c := hhash ▸ plain_of_lowerHex
    obtain ⟨path, hpath⟩ := Option.isSome_iff_exists.mp
      ((objectPath_isSome_iff lfsDir repoId oid).mpr (twoBytesApart_of_plain hplain))
    rw [hpath]
    refine (confined_single (no_slash_of_isSafe hrepo) (no_slash_of_isSafe hoid) hpath _).trans ?_
    exact and_iff_left (not_up_of_plain hplain)

theorem lfsDownload_confined {repoId oid : String}
    (hacc : (lfsDownload env (some lfsDir) repoId oid).Accepted) :
    (lfsDownload env (some lfsDir) repoId oid).Confined cwd lfsDir repoId ↔
      IsName repoId ∧ TwoBytesApart oid.toList ∧ ¬ "..".toList <+: oid.toList := by
  unfold lfsDownload at hacc ⊢
  split at hacc
  swap
  · exact absurd rfl (hacc _ _)
  rename_i hsafe
  obtain ⟨hrepo, hoid⟩ := Bool.and_eq_true_iff.mp hsafe
  rw [if_pos hsafe, ← objectPath_isSome_iff lfsDir repoId oid]
  dsimp only
  cases hpath : objectPath lfsDir repoId oid with
  | none => exact ⟨False.elim, fun hand => nomatch hand.2.1⟩
  | some path =>
    refine (confined_single (no_slash_of_isSafe hrepo) (no_slash_of_isSafe hoid) hpath _).trans ?_
    exact and_congr Iff.rfl (and_iff_right rfl).symm

/-- The objects of a batch have paths, each of an id that is one. -/
theorem batchObjects_paths (req : LfsBatchRequest) (objects : List LfsObjectRef) :
    ∃ actions, batchObjects env lfsDir req objects = some actions ∧ ∀ action ∈ actions,
      ∃ oid, isOid oid = true ∧ objectPath lfsDir req.repoId oid = some action.1 := by
  induction objects with
  | nil => exact ⟨[], rfl, nofun⟩
  | cons obj rest ih =>
    obtain ⟨actions, hactions, hpaths⟩ := ih
    rw [batchObjects]
    split
    · rename_i hoid
      obtain ⟨path, hpath⟩ := Option.isSome_iff_exists.mp
        ((objectPath_isSome_iff lfsDir req.repoId obj.oid).mpr
          (twoBytesApart_of_plain (plain_of_isOid hoid)))
      rw [hpath, hactions]
      refine ⟨_, rfl, List.forall_mem_cons.mpr ⟨⟨obj.oid, hoid, hpath⟩, hpaths⟩⟩
    · exact ⟨actions, hactions, hpaths⟩

theorem lfsBatch_confined {req : LfsBatchRequest}
    (hacc : (lfsBatch env (some lfsDir) req).Accepted) :
    (lfsBatch env (some lfsDir) req).Confined cwd lfsDir req.repoId ↔ IsName req.repoId := by
  unfold lfsBatch at hacc ⊢
  split at hacc
  swap
  · exact absurd rfl (hacc _ _)
  rename_i hsafe
  have hslash := no_slash_of_isSafe hsafe
  obtain ⟨actions, hactions, hpaths⟩ := batchObjects_paths env lfsDir req req.objects
  rw [if_pos hsafe]
  dsimp only
  rw [hactions]
  constructor
  · intro hconfined
    by_contra hname
    exact not_inside hname _ (hconfined _ (List.mem_cons_self ..))
  · intro hname path hpath
    rcases List.mem_cons.mp hpath with rfl | hmem
    · rw [Inside, names_objectsDir hslash hname]
    · obtain ⟨action, haction, rfl⟩ := List.mem_map.mp hmem
      obtain ⟨oid, hoid, hobject⟩ := hpaths action haction
      have hplain := plain_of_isOid hoid
      exact (inside_objectPath_iff hslash (no_slash_of_plain hplain) hobject).mpr
        ⟨hname, not_up_of_plain hplain⟩

end Confined

/-- The requests that the handlers accept are confined exactly when the repository has the name
of a directory and, for a download, the id has a first directory that does not go up. -/
theorem lfs_paths_confined_iff (env : LfsEnv) (cwd : Place) (lfsDir : String) :
    (∀ h authorization repoId oid body,
      (lfsUpload env h authorization (some lfsDir) repoId oid body).Accepted →
        ((lfsUpload env h authorization (some lfsDir) repoId oid body).Confined cwd lfsDir repoId ↔
          IsName repoId)) ∧
      (∀ repoId oid, (lfsDownload env (some lfsDir) repoId oid).Accepted →
        ((lfsDownload env (some lfsDir) repoId oid).Confined cwd lfsDir repoId ↔
          IsName repoId ∧ TwoBytesApart oid.toList ∧ ¬ "..".toList <+: oid.toList)) ∧
      ∀ req, (lfsBatch env (some lfsDir) req).Accepted →
        ((lfsBatch env (some lfsDir) req).Confined cwd lfsDir req.repoId ↔ IsName req.repoId) :=
  ⟨fun _ _ _ _ _ => lfsUpload_confined env cwd lfsDir, fun _ _ => lfsDownload_confined env cwd lfsDir,
    fun _ => lfsBatch_confined env cwd lfsDir⟩

/-- No files, and Chinese characters are letters. -/
def emptyLfs : LfsEnv where
  toHubEnv := openEnv
  unicodeAlphanumeric := fun c => decide (0x4e00 ≤ c.toNat ∧ c.toNat ≤ 0x9fff)
  fileExists := fun _ => false
  readFile := fun _ => none
  writeFile := fun _ _ => none

theorem lfs_paths_confined_iff_download :
    (lfsDownload emptyLfs (some "/srv/lfs") "r" "ab").Accepted ∧
      (lfsDownload emptyLfs (some "/srv/lfs") "r" "ab").Confined .root "/srv/lfs" "r" := by
  have hanswered : lfsDownload emptyLfs (some "/srv/lfs") "r" "ab" =
      .answered ["/srv/lfs/r/objects/ab/ab"] .notFound := by decide +kernel
  have haccepted : (lfsDownload emptyLfs (some "/srv/lfs") "r" "ab").Accepted := by
    rw [hanswered]
    exact fun _ _ => nofun
  refine ⟨haccepted, ?_⟩
  refine ((lfs_paths_confined_iff emptyLfs .root "/srv/lfs").2.1 "r" "ab" haccepted).mpr ?_
  exact ⟨by decide, .inr ⟨rfl, rfl⟩, by decide⟩

/-- An id of one Chinese character panics, one that begins with two dots leaves the objects, and
a repository that is called so leaves the directory of the hub. -/
theorem lfs_paths_escape :
    lfsDownload emptyLfs (some "/srv/lfs") "r" "\u65e5" = .panicked ∧
      lfsDownload emptyLfs (some "/srv/lfs") "r" "..x" =
        .answered ["/srv/lfs/r/objects/../..x"] .notFound ∧
      ¬ Inside .root "/srv/lfs" "r" "/srv/lfs/r/objects/../..x" ∧
      lfsBatch emptyLfs (some "/srv/lfs") ⟨"..", [], .upload⟩ =
        .answered ["/srv/lfs/../objects"] (.actions []) ∧
      (Path.resolve .root "/srv/lfs/../objects").names = ["srv", "objects"] := by
  refine ⟨by decide +kernel, by decide +kernel, ?_, by decide +kernel, by decide +kernel⟩
  unfold Inside
  decide +kernel

end Suture.Wire
