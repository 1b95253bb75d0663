import Mathlib.Data.List.TakeWhile
import Suture.Foundation.HashChain
import Suture.Wire.Proto

/-!
# The audit log

A file of lines, one entry in JSON each. Every entry holds the content hash of the entry
before it and a hash over its own fields, the texts of which are written one after the
other. Lines that do not parse are skipped when the log is read.

A log that verifies is a chain, and the last hash of a chain decides all that was hashed:
of every entry the sequence number, the two hashes, and its texts run together. Where one
text ends and the next begins is not part of it, nor is the signature.
-/

namespace Suture.Audit
set_option autoImplicit false
open Wire Foundation

abbrev Digest := Vector UInt8 32

/-- What the first entry has for the hash of the one before. -/
def noDigest : Digest := Vector.replicate 32 0

structure AuditEntry where
  sequence : UInt64
  prevHash : Digest
  contentHash : Digest
  timestamp : String
  actor : String
  action : String
  details : String
  signature : Option (List UInt8)
deriving DecidableEq

/-- The libraries that the log rests on: the hash function, and the JSON of an entry. -/
structure Libraries where
  blake3 : List UInt8 → Digest
  toJson : AuditEntry → String
  fromJson : String → Option AuditEntry

inductive AuditError where
  | invalidData
deriving DecidableEq

namespace AuditEntry

/-- The texts of an entry as they are hashed. -/
def text (entry : AuditEntry) : List UInt8 :=
  utf8 entry.timestamp ++ utf8 entry.actor ++ utf8 entry.action ++ utf8 entry.details

def hashInput (entry : AuditEntry) : List UInt8 :=
  toLeBytes entry.sequence ++ entry.prevHash.toList ++ entry.text

def computeContentHash (lib : Libraries) (entry : AuditEntry) : Digest :=
  lib.blake3 entry.hashInput

def verifyIntegrity (lib : Libraries) (entry : AuditEntry) : Bool :=
  entry.computeContentHash lib = entry.contentHash

def verifyChain (lib : Libraries) (entry : AuditEntry) : Option AuditEntry → Bool
  | some prev => if entry.prevHash ≠ prev.contentHash then false else entry.verifyIntegrity lib
  | none => if entry.prevHash ≠ noDigest then false else entry.verifyIntegrity lib

end AuditEntry

/-- The lines of the file, if there is one; a line that is not UTF-8 is no text. -/
abbrev LogFile := Option (List (Option String))

/-- A call of `append`, with the time at which it is made. -/
structure AppendCall where
  timestamp : String
  actor : String
  action : String
  details : String
deriving DecidableEq

namespace AuditLog
variable (lib : Libraries)

def lastEntry : LogFile → Except AuditError (Option AuditEntry)
  | none => .ok none
  | some lines =>
    match (lines.takeWhile Option.isSome).getLast? with
    | some (some line) =>
      match lib.fromJson line with
      | some entry => .ok (some entry)
      | none => .error .invalidData
    | _ => .ok none

def entries : LogFile → List AuditEntry
  | none => []
  | some lines => lines.filterMap fun line => line.bind lib.fromJson

/-- The entry that is written after `prev`. -/
def newEntry (prev : Option AuditEntry) (call : AppendCall) : AuditEntry :=
  let entry : AuditEntry := {
    sequence := prev.elim 0 fun e => e.sequence + 1
    prevHash := prev.elim noDigest AuditEntry.contentHash
    contentHash := noDigest
    timestamp := call.timestamp
    actor := call.actor
    action := call.action
    details := call.details
    signature := none }
  { entry with contentHash := entry.computeContentHash lib }

def append (call : AppendCall) (file : LogFile) : Except AuditError AuditEntry × LogFile :=
  match lastEntry lib file with
  | .error e => (.error e, file)
  | .ok prev =>
    let entry := newEntry lib prev call
    (.ok entry, some (file.getD [] ++ [some (lib.toJson entry)]))

/-- The first entry that does not verify against the one before it. -/
def firstInvalid (i : Nat) (prev : Option AuditEntry) : List AuditEntry → Option Nat
  | [] => none
  | entry :: rest =>
    if entry.verifyChain lib prev then firstInvalid (i + 1) (some entry) rest else some i

def verifyChain (file : LogFile) : Nat × Option Nat :=
  ((entries lib file).length, firstInvalid lib 0 none (entries lib file))

/-- The file that a sequence of calls leaves, from no file. -/
def produced (calls : List AppendCall) : LogFile :=
  calls.foldl (fun file call => (append lib call file).2) none

end AuditLog

/-! ### What verification tells -/

open AuditLog

/-- Distinct inputs have distinct hashes, and none has the hash that stands for no entry. -/
def CollisionFree (blake3 : List UInt8 → Digest) (inputs : List (List UInt8)) : Prop :=
  (∀ x ∈ inputs, ∀ y ∈ inputs, blake3 x = blake3 y → x = y) ∧ ∀ x ∈ inputs, blake3 x ≠ noDigest

/-- What the hashes cover of an entry. -/
def AuditEntry.hashed (entry : AuditEntry) : UInt64 × Digest × Digest × List UInt8 :=
  (entry.sequence, entry.prevHash, entry.contentHash, entry.text)

/-- The numbers and hashes before the texts have a fixed length. -/
theorem hashInput_inj {a b : AuditEntry} (h : a.hashInput = b.hashInput) :
    a.sequence = b.sequence ∧ a.prevHash = b.prevHash ∧ a.text = b.text := by
  have hlen : (toLeBytes a.sequence ++ a.prevHash.toList).length =
      (toLeBytes b.sequence ++ b.prevHash.toList).length := by
    simp [length_toLeBytes]
  obtain ⟨hhead, htext⟩ := List.append_inj h hlen
  obtain ⟨hseq, hprev⟩ := List.append_inj hhead (by simp [length_toLeBytes])
  exact ⟨toLeBytes_inj hseq, Vector.toList_inj.mp hprev, htext⟩

section Verify
variable {lib : Libraries}

/-- An entry whose content hash is that of its fields. -/
def Sealed (lib : Libraries) (entry : AuditEntry) : Prop :=
  lib.blake3 entry.hashInput = entry.contentHash

abbrev Linked (lib : Libraries) : Digest → List AuditEntry → Prop :=
  Chained AuditEntry.prevHash AuditEntry.contentHash (Sealed lib)

theorem verifyChain_iff {entry : AuditEntry} {prev : Option AuditEntry} :
    entry.verifyChain lib prev = true ↔
      entry.prevHash = prev.elim noDigest AuditEntry.contentHash ∧ Sealed lib entry := by
  have hseal : entry.verifyIntegrity lib = true ↔ Sealed lib entry := decide_eq_true_iff
  cases prev <;> simp [AuditEntry.verifyChain, hseal]

theorem firstInvalid_eq_none {i : Nat} {prev : Option AuditEntry} {es : List AuditEntry} :
    firstInvalid lib i prev es = none ↔
      Linked lib (prev.elim noDigest AuditEntry.contentHash) es := by
  induction es generalizing i prev with
  | nil => exact iff_of_true rfl trivial
  | cons e es ih =>
    rw [firstInvalid, Linked, chained_cons, ← and_assoc, ← verifyChain_iff]
    by_cases h : e.verifyChain lib prev = true
    · rw [if_pos h, ih]
      exact (and_iff_right h).symm
    · rw [if_neg h]
      exact iff_of_false (by simp) fun h' => h h'.1

/-- Verification finds nothing in a chain, and only there. -/
theorem verifyChain_eq_none {file : LogFile} :
    (AuditLog.verifyChain lib file).2 = none ↔ Linked lib noDigest (entries lib file) :=
  firstInvalid_eq_none

end Verify

/-! ### The entries that calls record -/

section Recorded
variable (lib : Libraries)

/-- The entries of the calls, one after the other. -/
def recorded (calls : List AppendCall) : List AuditEntry :=
  calls.foldl (fun es call => es ++ [newEntry lib es.getLast? call]) []

variable {lib}

theorem recorded_concat (calls : List AppendCall) (call : AppendCall) :
    recorded lib (calls ++ [call]) =
      recorded lib calls ++ [newEntry lib (recorded lib calls).getLast? call] := by
  simp [recorded]

theorem newEntry_sealed (prev : Option AuditEntry) (call : AppendCall) :
    Sealed lib (newEntry lib prev call) := rfl

theorem newEntry_prevHash (prev : Option AuditEntry) (call : AppendCall) :
    (newEntry lib prev call).prevHash = prev.elim noDigest AuditEntry.contentHash := rfl

theorem tip_eq_getLast? (es : List AuditEntry) :
    tip AuditEntry.contentHash noDigest es =
      es.getLast?.elim noDigest AuditEntry.contentHash := by
  rcases List.eq_nil_or_concat es with rfl | ⟨es, e, rfl⟩
  · rfl
  · simp

theorem linked_recorded (calls : List AppendCall) :
    Linked lib noDigest (recorded lib calls) := by
  induction calls using List.reverseRecOn with
  | nil => trivial
  | append_singleton calls call ih =>
    rw [recorded_concat]
    apply chained_concat.mpr
    refine ⟨ih, ?_, newEntry_sealed _ _⟩
    rw [newEntry_prevHash, tip_eq_getLast?]

theorem lastEntry_written (es : List AuditEntry)
    (hjson : ∀ e ∈ es, lib.fromJson (lib.toJson e) = some e) :
    lastEntry lib (some (es.map fun e => some (lib.toJson e))) = .ok es.getLast? := by
  have htake : (es.map fun e => some (lib.toJson e)).takeWhile Option.isSome =
      es.map fun e => some (lib.toJson e) := by
    rw [List.takeWhile_eq_self_iff]
    intro line hline
    obtain ⟨e, -, rfl⟩ := List.mem_map.mp hline
    rfl
  rw [lastEntry, htake, List.getLast?_map]
  cases hlast : es.getLast? with
  | none => rfl
  | some e =>
    have hread := hjson e (List.mem_of_getLast? hlast)
    simp [hread]

/-- The file holds the recorded entries, a line each. -/
theorem produced_eq (calls : List AppendCall)
    (hjson : ∀ e ∈ recorded lib calls, lib.fromJson (lib.toJson e) = some e) :
    produced lib calls = if calls = [] then none
      else some ((recorded lib calls).map fun e => some (lib.toJson e)) := by
  induction calls using List.reverseRecOn with
  | nil => rfl
  | append_singleton calls call ih =>
    rw [recorded_concat] at hjson
    have hbefore := ih fun e he => hjson e (List.mem_append_left _ he)
    have hlast : lastEntry lib (produced lib calls) = .ok (recorded lib calls).getLast? := by
      rw [hbefore]
      split
      · rename_i hnil
        subst hnil
        rfl
      · exact lastEntry_written _ fun e he => hjson e (List.mem_append_left _ he)
    have hlines : (produced lib calls).getD [] =
        (recorded lib calls).map fun e => some (lib.toJson e) := by
      rw [hbefore]
      split
      · rename_i hnil
        subst hnil
        rfl
      · rfl
    rw [produced, List.foldl_append, List.foldl_cons, List.foldl_nil]
    change (append lib call (produced lib calls)).2 = _
    rw [append, hlast, if_neg (by simp), recorded_concat, List.map_append, hlines]
    rfl

/-- Entries that the library reads back are read from a line each. -/
theorem entries_written (es : List AuditEntry)
    (hjson : ∀ e ∈ es, lib.fromJson (lib.toJson e) = some e) :
    entries lib (some (es.map fun e => some (lib.toJson e))) = es := by
  rw [entries, List.filterMap_map]
  change es.filterMap (fun e => lib.fromJson (lib.toJson e)) = es
  induction es with
  | nil => rfl
  | cons e es ih =>
    have hrest := ih fun d hd => hjson d (List.mem_cons_of_mem _ hd)
    rw [List.filterMap_cons, hjson e List.mem_cons_self, hrest]

theorem entries_produced {calls : List AppendCall}
    (hjson : ∀ e ∈ recorded lib calls, lib.fromJson (lib.toJson e) = some e) :
    entries lib (produced lib calls) = recorded lib calls := by
  rw [produced_eq calls hjson]
  split
  · rename_i hnil
    subst hnil
    rfl
  · exact entries_written _ hjson

end Recorded

/-! ### Modified logs -/

section Tampered
variable {lib : Libraries} {calls : List AppendCall} {file : LogFile}

theorem sealed_hashed {a b : AuditEntry} (h : a.hashed = b.hashed) :
    a.prevHash = b.prevHash ∧ a.contentHash = b.contentHash ∧ (Sealed lib a → Sealed lib b) := by
  have hseq : a.sequence = b.sequence := congrArg (·.1) h
  have hprev : a.prevHash = b.prevHash := congrArg (·.2.1) h
  have hcontent : a.contentHash = b.contentHash := congrArg (·.2.2.1) h
  have htext : a.text = b.text := congrArg (·.2.2.2) h
  refine ⟨hprev, hcontent, fun hs => ?_⟩
  have hinput : b.hashInput = a.hashInput := by
    rw [AuditEntry.hashInput, AuditEntry.hashInput, hseq, hprev, htext]
  rw [Sealed, hinput, ← hcontent]
  exact hs

theorem hashed_of_contentHash {es : List AuditEntry}
    (hfree : CollisionFree lib.blake3 (es.map AuditEntry.hashInput)) {a b : AuditEntry}
    (ha : a ∈ es) (hb : b ∈ es) (hsa : Sealed lib a) (hsb : Sealed lib b)
    (h : a.contentHash = b.contentHash) : a.hashed = b.hashed := by
  have hhash : lib.blake3 a.hashInput = lib.blake3 b.hashInput := by
    rw [hsa, hsb, h]
  have hinput := hfree.1 _ (List.mem_map_of_mem ha) _ (List.mem_map_of_mem hb) hhash
  obtain ⟨hseq, hprev, htext⟩ := hashInput_inj hinput
  rw [AuditEntry.hashed, AuditEntry.hashed, hseq, hprev, htext, h]

/-- A chain that ends with an entry of the log is, as far as the hashes cover it, the log
up to there. -/
theorem prefix_of_linked {es log : List AuditEntry}
    (hfree : CollisionFree lib.blake3 ((log ++ es).map AuditEntry.hashInput))
    (hlog : Linked lib noDigest log) (hes : Linked lib noDigest es)
    (hkept : ∀ e ∈ es.getLast?, e ∈ log) :
    es.map AuditEntry.hashed <+: log.map AuditEntry.hashed := by
  cases hlast : es.getLast? with
  | none =>
    rw [List.getLast?_eq_none_iff.mp hlast]
    exact List.nil_prefix
  | some e =>
    obtain ⟨before, after, rfl⟩ := List.append_of_mem (hkept e hlast)
    have hpre : before ++ [e] <+: before ++ e :: after := ⟨after, by simp⟩
    have htip : tip AuditEntry.contentHash noDigest es =
        tip AuditEntry.contentHash noDigest (before ++ [e]) := by
      rw [tip_eq_getLast?, tip_eq_getLast?, hlast, List.getLast?_concat]
    have hmem : ∀ a ∈ es ++ (before ++ [e]), a ∈ before ++ e :: after ++ es := by
      intro a ha
      rcases List.mem_append.mp ha with ha | ha
      · exact List.mem_append_right _ ha
      · exact List.mem_append_left _ (hpre.subset ha)
    have hlink : ∀ {a b : AuditEntry}, a.hashed = b.hashed → a.prevHash = b.prevHash :=
      fun h => (@sealed_hashed lib _ _ h).1
    have heq : es.map AuditEntry.hashed = (before ++ [e]).map AuditEntry.hashed :=
      Chained.keys_eq hlink
      (fun a ha b hb => hashed_of_contentHash hfree
        (hmem a (List.mem_append_left _ ha)) (hmem b (List.mem_append_right _ hb)))
      (fun a ha hsealed hnone => hfree.2 _ (List.mem_map_of_mem (hmem a ha))
        (hsealed.trans hnone))
      hes (hlog.of_prefix hpre) htip
    rw [heq]
    exact hpre.map _

/-- Verification of a modified log whose last entry is one of the log reports an entry
unless the modified log is, as far as the hashes cover it, the log or its beginning. -/
theorem tampering_reported_iff
    (hjson : ∀ e ∈ recorded lib calls, lib.fromJson (lib.toJson e) = some e)
    (hfree : CollisionFree lib.blake3
      ((entries lib (produced lib calls) ++ entries lib file).map AuditEntry.hashInput))
    (hkept : ∀ e ∈ (entries lib file).getLast?, e ∈ entries lib (produced lib calls)) :
    (AuditLog.verifyChain lib file).2.isSome = true ↔
      ¬ (entries lib file).map AuditEntry.hashed <+:
        (entries lib (produced lib calls)).map AuditEntry.hashed := by
  have hlog : Linked lib noDigest (entries lib (produced lib calls)) := by
    rw [entries_produced hjson]
    exact linked_recorded calls
  have hvalid : (AuditLog.verifyChain lib file).2 = none ↔
      (entries lib file).map AuditEntry.hashed <+:
        (entries lib (produced lib calls)).map AuditEntry.hashed := by
    rw [verifyChain_eq_none]
    constructor
    · intro hes
      exact prefix_of_linked hfree hlog hes hkept
    · intro hpre
      have heq := List.prefix_iff_eq_take.mp hpre
      rw [← List.map_take] at heq
      exact (hlog.of_prefix (List.take_prefix ..)).of_keys sealed_hashed heq.symm
  rw [← hvalid, Option.isSome_iff_ne_none]

end Tampered

/-! ### Two logs of two entries -/

/-- The bytes from the time of day on; the inputs below differ in them. -/
def sampleHash (bytes : List UInt8) : Digest := Vector.ofFn fun i => bytes.getD (51 + i.val) 0 + 1

def sampleJson (entry : AuditEntry) : String :=
  "\x7b\"sequence\":" ++ toString entry.sequence.toNat ++
    ",\"prev_hash\":" ++ toString (entry.prevHash.toList.map UInt8.toNat) ++
    ",\"content_hash\":" ++ toString (entry.contentHash.toList.map UInt8.toNat) ++
    ",\"timestamp\":\"" ++ entry.timestamp ++ "\",\"actor\":\"" ++ entry.actor ++
    "\",\"action\":\"" ++ entry.action ++ "\",\"details\":\"" ++ entry.details ++
    "\",\"signature\":null\x7d"

def sampleCalls : List AppendCall :=
  [⟨"2024-01-01T00:00:00+00:00", "ab", "c", "first"⟩,
    ⟨"2024-01-01T00:00:01+00:00", "ab", "c", "second"⟩]

def sampleEntries : List AuditEntry :=
  recorded ⟨sampleHash, sampleJson, fun _ => none⟩ sampleCalls

/-- The log with another actor and action in its first entry, hashed anew. -/
def rewritten (actor action : String) : List AuditEntry :=
  sampleEntries.modifyHead fun e =>
    let e := { e with actor, action }
    { e with contentHash := sampleHash e.hashInput }

def sampleLibraries : Libraries where
  blake3 := sampleHash
  toJson := sampleJson
  fromJson line :=
    (sampleEntries ++ rewritten "eve" "c" ++ rewritten "a" "bc").find? fun e => sampleJson e = line

def fileOf (es : List AuditEntry) : LogFile := some (es.map fun e => some (sampleJson e))

instance (blake3 : List UInt8 → Digest) (inputs : List (List UInt8)) :
    Decidable (CollisionFree blake3 inputs) := inferInstanceAs (Decidable (_ ∧ _))

theorem sample_read_back : ∀ es ∈ [sampleEntries, rewritten "eve" "c", rewritten "a" "bc"],
    ∀ e ∈ es, sampleLibraries.fromJson (sampleJson e) = some e := by
  decide +kernel

theorem entries_sample :
    entries sampleLibraries (produced sampleLibraries sampleCalls) = sampleEntries :=
  entries_produced (sample_read_back sampleEntries List.mem_cons_self)

theorem entries_fileOf {es : List AuditEntry}
    (h : es ∈ [sampleEntries, rewritten "eve" "c", rewritten "a" "bc"]) :
    entries sampleLibraries (fileOf es) = es :=
  entries_written es (sample_read_back es h)

theorem tampering_reported_actor :
    (AuditLog.verifyChain sampleLibraries (fileOf (rewritten "eve" "c"))).2.isSome = true := by
  have hlog := entries_sample
  have hfile : entries sampleLibraries (fileOf (rewritten "eve" "c")) = rewritten "eve" "c" :=
    entries_fileOf (by simp)
  refine (@tampering_reported_iff sampleLibraries sampleCalls _
    (sample_read_back sampleEntries List.mem_cons_self) ?_ ?_).mpr ?_
  · rw [hlog, hfile]
    decide +kernel
  · rw [hlog, hfile]
    decide +kernel
  · rw [hlog, hfile]
    decide +kernel

/-- A letter is moved from the actor of the first entry to its action. The last entry is
kept, and verification finds nothing. -/
theorem tampering_unreported :
    let log := produced sampleLibraries sampleCalls
    let file := fileOf (rewritten "a" "bc")
    CollisionFree sampleHash
      ((entries sampleLibraries log ++ entries sampleLibraries file).map AuditEntry.hashInput) ∧
    (entries sampleLibraries file).getLast? = (entries sampleLibraries log).getLast? ∧
    (entries sampleLibraries file).length = (entries sampleLibraries log).length ∧
    entries sampleLibraries file ≠ entries sampleLibraries log ∧
    AuditLog.verifyChain sampleLibraries file = (2, none) := by
  intro log file
  have hlog : entries sampleLibraries log = sampleEntries := entries_sample
  have hfile : entries sampleLibraries file = rewritten "a" "bc" := entries_fileOf (by simp)
  rw [AuditLog.verifyChain, hlog, hfile]
  decide +kernel

end Suture.Audit
