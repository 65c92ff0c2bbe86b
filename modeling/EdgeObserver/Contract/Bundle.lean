import EdgeObserver.Config.Names

/-!
# A bundle and its members

Validation reads a bundle's manifest, and each member at the path the manifest gives
it. A reference is then resolved in the member the manifest names, while the check of
agreement reads the members where an assembled bundle keeps them.
-/

set_option autoImplicit false

namespace EdgeObserver.Contract

open Text
open Config (decimal)

structure Member where
  role : Bytes
  path : Bytes
  contract : Bytes
  sha256 : Bytes
deriving DecidableEq

structure Manifest where
  bundle : Bytes := []
  session : Bytes := []
  members : Option (List Member) := none
deriving DecidableEq

def manifestName : Bytes := ascii "bundle.json"

def bundleVersion : Bytes := ascii "observer.bundle/1-draft"

def roles : List Bytes :=
  [ascii "account", ascii "observations", ascii "connections", ascii "reconstructions", ascii "reassembly"]

def roleContract (role : Bytes) : Bytes :=
  if role = ascii "account" then ascii "observer.account/2-draft" else ascii "observer.record/1-draft"

def paths (role : Bytes) : Bytes :=
  if role = ascii "account" then ascii "account.json"
  else if role ∈ roles then ascii "records/" ++ role ++ ascii ".jsonl" else []

/-- The files of a bundle: a path outside its form names none of them. -/
structure Tree where
  validPath : Bytes → Bool
  readFile : Bytes → Option Bytes
  refuses : ∀ path, validPath path = false → readFile path = none

inductive Reason where
  | manifestAbsent | manifestMalformed | unknownBundleVersion | unknownRole | duplicateMember | unknownMemberContract
  | memberMissing | memberDigestMismatch | stage (name : Bytes)
deriving DecidableEq

structure Finding where
  member : Bytes
  place : Bytes
  reason : Reason
deriving DecidableEq

structure Validation where
  manifest : Manifest := {}
  members : Bytes → Option Member := fun _ => none
  content : Bytes → Option Bytes := fun _ => none
  findings : List Finding := []

def isJSONSpace (b : UInt8) : Bool := b == 32 || b == 9 || b == 10 || b == 13

/-- What validation is given: the manifest that bytes begin with and what stands
after it, the manifest that they are as a whole, their digest, and the findings of
the stages about closure, the account, the records and the session. -/
structure Codec where
  decode : Bytes → Option (Manifest × Bytes)
  unmarshal : Bytes → Option Manifest
  unmarshal_eq : ∀ content manifest rest, decode content = some (manifest, rest) →
    unmarshal content = if rest.all isJSONSpace then some manifest else none
  digestOf : Bytes → Bytes
  closure : Tree → List Finding
  later : List (Validation → List Finding)

namespace Validation

variable (c : Codec) (t : Tree)

def refuse (v : Validation) (finding : Finding) : Validation := { v with findings := v.findings ++ [finding] }

def readManifest : Validation :=
  match t.readFile manifestName with
  | none => refuse {} ⟨manifestName, [], .manifestAbsent⟩
  | some content =>
    match c.decode content with
    | none => refuse {} ⟨manifestName, [], .manifestMalformed⟩
    | some (manifest, _) =>
      if manifest.bundle ≠ bundleVersion then
        refuse { manifest } ⟨manifestName, ascii "bundle", .unknownBundleVersion⟩
      else if manifest.session = [] ∨ manifest.members = none then
        refuse { manifest } ⟨manifestName, [], .manifestMalformed⟩
      else { manifest }

def readMember (v : Validation) (member : Member) (index : Nat) : Validation :=
  let at_ := ascii "members[" ++ decimal index ++ ascii "]"
  if member.role ∉ roles then v.refuse ⟨manifestName, at_ ++ ascii ".role", .unknownRole⟩
  else if (v.members member.role).isSome then v.refuse ⟨manifestName, at_ ++ ascii ".role", .duplicateMember⟩
  else if member.contract ≠ roleContract member.role then
    v.refuse ⟨manifestName, at_ ++ ascii ".contract", .unknownMemberContract⟩
  else
    let v := { v with members := Function.update v.members member.role (some member) }
    match t.readFile member.path with
    | none => v.refuse ⟨member.path, [], .memberMissing⟩
    | some content =>
      if c.digestOf content ≠ member.sha256 then v.refuse ⟨member.path, [], .memberDigestMismatch⟩
      else { v with content := Function.update v.content member.role (some content) }

def readMembers (v : Validation) : Validation :=
  let v := (v.manifest.members.getD []).zipIdx.foldl (fun v one => v.readMember c t one.1 one.2) v
  { v with findings := v.findings ++ (roles.filter fun role => (v.members role).isNone).map fun _ =>
      ⟨manifestName, ascii "members", .memberMissing⟩ }

/-- One stage after another, until one finds something. -/
def stages (v : Validation) (stages : List (Validation → Validation)) : Validation :=
  stages.foldl (fun v stage => if v.findings = [] then stage v else v) v

def run : Validation :=
  (readManifest c t).stages
    ((fun v => { v with findings := c.closure t }) :: readMembers c t ::
      c.later.map fun stage v => { v with findings := stage v })

end Validation

inductive Unread where
  | noManifest | manifestUnreadable | pathOutside (path : Bytes) | unreadable (path : Bytes) | unnamed
deriving DecidableEq

def memberOf (c : Codec) (t : Tree) (role : Bytes) : Except Unread (Bytes × Bytes) :=
  match t.readFile manifestName with
  | none => .error .noManifest
  | some content =>
    match c.unmarshal content with
    | none => .error .manifestUnreadable
    | some manifest =>
      match (manifest.members.getD []).find? (·.role = role) with
      | none => .error .unnamed
      | some member =>
        if t.validPath member.path = false then .error (.pathOutside member.path)
        else match t.readFile member.path with
          | none => .error (.unreadable member.path)
          | some data => .ok (member.path, data)

namespace Validation

variable {c : Codec} {t : Tree} {v : Validation}

/-- The members read so far: the first of each role, read whole and of its digest. -/
def Holds (c : Codec) (t : Tree) (seen : List Member) (v : Validation) : Prop :=
  v.findings = [] → ∀ role, v.members role = seen.find? (·.role = role) ∧
    ∀ member ∈ v.members role, ∃ content, t.readFile member.path = some content ∧
      c.digestOf content = member.sha256 ∧ v.content role = some content

theorem refuse_findings (v : Validation) (finding : Finding) : (v.refuse finding).findings ≠ [] := by simp [refuse]

theorem Holds.member {seen : List Member} (holds : v.Holds c t seen) (member : Member) (index : Nat) :
    (v.readMember c t member index).Holds c t (seen ++ [member]) := by
  unfold readMember
  dsimp only
  intro clear
  split at clear
  · exact absurd clear (refuse_findings _ _)
  rename_i known
  split at clear
  · exact absurd clear (refuse_findings _ _)
  rename_i fresh
  split at clear
  · exact absurd clear (refuse_findings _ _)
  rename_i written
  rw [if_neg known, if_neg fresh, if_neg written]
  cases read : t.readFile member.path with
  | none =>
    simp only [read] at clear
    exact absurd clear (refuse_findings _ _)
  | some content =>
    simp only [read] at clear ⊢
    split at clear
    · exact absurd clear (refuse_findings _ _)
    rename_i digest
    rw [if_neg digest]
    intro role
    obtain ⟨same, each⟩ := holds clear role
    by_cases here : role = member.role
    · subst here
      simp only [Function.update_self, List.find?_append]
      refine ⟨?_, fun one is => ?_⟩
      · rw [← same, Option.not_isSome_iff_eq_none.mp fresh]
        simp
      · cases is
        exact ⟨content, read, by simpa using digest, rfl⟩
    · simp only [Function.update_of_ne here, List.find?_append, ← same]
      refine ⟨?_, each⟩
      simp [Ne.symm here]

theorem Holds.members {seen : List Member} (ms : List Member) (start : Nat) (holds : v.Holds c t seen) :
    ((ms.zipIdx start).foldl (fun v one => v.readMember c t one.1 one.2) v).Holds c t (seen ++ ms) := by
  induction ms generalizing v seen start with
  | nil => simpa using holds
  | cons member rest ih =>
    have after := ih (start + 1) (holds.member member start)
    rwa [List.append_assoc] at after

theorem stages_stuck (found : v.findings ≠ []) (rest : List (Validation → Validation)) : v.stages rest = v := by
  induction rest with
  | nil => rfl
  | cons stage rest ih =>
    simp only [stages, List.foldl_cons, if_neg found]
    exact ih

theorem stages_cons {stage : Validation → Validation} {rest : List (Validation → Validation)}
    (clear : (v.stages (stage :: rest)).findings = []) :
    v.findings = [] ∧ v.stages (stage :: rest) = (stage v).stages rest := by
  have none_yet : v.findings = [] := by
    by_contra found
    rw [stages_stuck found] at clear
    exact found clear
  exact ⟨none_yet, by simp [stages, none_yet]⟩

/-- Stages that only look find nothing, or are not come to. -/
theorem stages_look {looks : List (Validation → List Finding)}
    (clear : (v.stages (looks.map fun look v => { v with findings := look v })).findings = []) :
    v.findings = [] ∧ v.stages (looks.map fun look v => { v with findings := look v }) = v := by
  induction looks generalizing v with
  | nil => exact ⟨clear, rfl⟩
  | cons look rest ih =>
    rw [List.map_cons] at clear ⊢
    obtain ⟨none_yet, next⟩ := stages_cons clear
    rw [next] at clear ⊢
    obtain ⟨found, after⟩ := ih clear
    have found : look v = [] := found
    refine ⟨none_yet, after.trans ?_⟩
    rw [found, ← none_yet]

theorem run_clear (clear : (run c t).findings = []) :
    (readManifest c t).findings = [] ∧ (readMembers c t (readManifest c t)).findings = [] ∧
      run c t = readMembers c t (readManifest c t) := by
  unfold run at clear ⊢
  obtain ⟨named, next⟩ := stages_cons clear
  rw [next] at clear ⊢
  obtain ⟨closed, next⟩ := stages_cons clear
  rw [next] at clear ⊢
  have closed : c.closure t = [] := closed
  have still : { readManifest c t with findings := c.closure t } = readManifest c t := by rw [closed, ← named]
  rw [still] at clear ⊢
  obtain ⟨read, same⟩ := stages_look clear
  exact ⟨named, read, same⟩

theorem readManifest_clear (clear : (readManifest c t).findings = []) : ∃ content manifest rest,
    t.readFile manifestName = some content ∧ c.decode content = some (manifest, rest) ∧
      readManifest c t = { manifest } := by
  unfold readManifest at clear ⊢
  cases read : t.readFile manifestName with
  | none => simp [read, refuse] at clear
  | some content =>
    cases is : c.decode content with
    | none => simp [read, is, refuse] at clear
    | some out =>
      obtain ⟨manifest, rest⟩ := out
      refine ⟨content, manifest, rest, rfl, is, ?_⟩
      simp only [read, is] at clear ⊢
      split at clear
      · exact absurd clear (refuse_findings _ _)
      rename_i version
      split at clear
      · exact absurd clear (refuse_findings _ _)
      rename_i named
      rw [if_neg version, if_neg named]

theorem readMembers_clear {manifest : Manifest} (clear : (readMembers c t { manifest }).findings = []) {role : Bytes}
    (known : role ∈ roles) : ∃ member content, (readMembers c t { manifest }).members role = some member ∧
      (readMembers c t { manifest }).content role = some content ∧ t.readFile member.path = some content ∧
      c.digestOf content = member.sha256 ∧ (manifest.members.getD []).find? (·.role = role) = some member := by
  have start : Holds c t [] { manifest } := fun _ _ => ⟨rfl, nofun⟩
  have holds := start.members (manifest.members.getD []) 0
  unfold readMembers at clear ⊢
  dsimp only at clear ⊢
  generalize ((manifest.members.getD []).zipIdx.foldl (fun (v : Validation) one => v.readMember c t one.1 one.2)
    { manifest }) = v at clear holds ⊢
  obtain ⟨found, present⟩ := List.append_eq_nil_iff.mp clear
  have present := List.filter_eq_nil_iff.mp (List.map_eq_nil_iff.mp present) role known
  obtain ⟨same, each⟩ := holds found role
  obtain ⟨member, is⟩ := Option.ne_none_iff_exists'.mp (by simpa using present)
  obtain ⟨content, read, digest, kept⟩ := each member is
  exact ⟨member, content, is, kept, read, digest, by rw [← is, same]; rfl⟩

end Validation

/-- What the check of agreement reads of a role. -/
def agreementReads (t : Tree) (role : Bytes) : Option Bytes := t.readFile (paths role)

/-- A bundle whose account stands at `path`, beside other files. -/
def sampleMembers (path : Bytes) : List Member :=
  roles.map fun role =>
    { role, path := if role = ascii "account" then path else paths role, contract := roleContract role, sha256 := role }

def sampleManifest (path : Bytes) : Manifest :=
  { bundle := bundleVersion, session := ascii "s", members := some (sampleMembers path) }

def sampleCodec (path : Bytes) : Codec where
  decode content := if content = ascii "m" then some (sampleManifest path, []) else none
  unmarshal content := if content = ascii "m" then some (sampleManifest path) else none
  unmarshal_eq content manifest rest is := by
    split at is
    · rename_i whole
      cases is
      rw [if_pos whole]
      rfl
    · cases is
  digestOf := id
  closure _ := []
  later := []

def sampleTree (path : Bytes) (beside : List (Bytes × Bytes)) : Tree where
  validPath _ := true
  readFile := fun path' => ((manifestName, ascii "m") :: (sampleMembers path).map (fun m => (m.path, m.role)) ++
    beside).lookup path'
  refuses := nofun

def plainCodec : Codec := sampleCodec (ascii "account.json")

def plainTree : Tree := sampleTree (ascii "account.json") []

end EdgeObserver.Contract
