import EdgeObserver.Text

/-!
# What an absent process directory means

Whether a procfs shows every process, by the mount table it publishes.
-/

set_option autoImplicit false

namespace EdgeObserver.Process

open Text

/-- `strings.Fields`, with the field read so far. -/
def fieldsFrom : Nat → Bytes → Bytes → List Bytes
  | 0, _, _ => []
  | fuel + 1, field, text =>
    let ended := if field = [] then [] else [field]
    match text with
    | [] => ended
    | b :: rest =>
      if (dropSpace text).length < text.length then ended ++ fieldsFrom fuel [] (dropSpace text)
      else fieldsFrom fuel (field ++ [b]) rest

def fields (text : Bytes) : List Bytes := fieldsFrom (text.length + 1) [] text

def mountinfoMountPoint : Nat := 4

def mountinfoOptions : Nat := 5

inductive Visibility where
  | visible
  | hidden
  | unpublished
  | fault
  deriving DecidableEq

def hidesProcesses (options : Bytes) : Bool :=
  (split 44 options).any fun option =>
    ["2", "4", "invisible", "ptraceable"].any fun value => option == ascii "hidepid=" ++ ascii value

def mountSays (point : Bytes) (line : List Bytes) : Option Visibility :=
  match line.idxOf? (ascii "-") with
  | none => none
  | some separator =>
    if separator + 3 > line.length ∨ separator < mountinfoOptions + 1 then none
    else if (line)[mountinfoMountPoint]? ≠ some point ∨ (line)[separator + 1]? ≠ some (ascii "proc") then none
    else match (line)[mountinfoOptions]?, (line)[separator + 3]? with
      | some own, some super => some (if hidesProcesses own || hidesProcesses super then .hidden else .visible)
      | _, _ => some .fault

/-- `ProcessesAreVisible` over the table of the mount at this point. -/
def processesAreVisible (point table : Bytes) : Visibility :=
  (((split lf table).map fields).findSome? (mountSays point)).getD .unpublished

/-! ## Mounts -/

def procMount (point : Bytes) (line : List Bytes) : Bool :=
  (line.idxOf? (ascii "-")).any fun separator => decide (mountinfoOptions < separator) &&
    (line)[mountinfoMountPoint]? == some point && (line)[separator + 1]? == some (ascii "proc")

def HasOptions (line : List Bytes) : Prop := ∀ separator ∈ line.idxOf? (ascii "-"), separator + 3 < line.length

def hidesOthers (line : List Bytes) : Bool :=
  hidesProcesses ((line)[mountinfoOptions]?.getD []) || (line.idxOf? (ascii "-")).any fun separator =>
    hidesProcesses ((line)[separator + 3]?.getD [])

def procMounts (point table : Bytes) : List (List Bytes) := ((split lf table).map fields).filter (procMount point)

theorem mountSays_eq {point : Bytes} {line : List Bytes} (whole : procMount point line = true → HasOptions line) :
    mountSays point line = if procMount point line then some (if hidesOthers line then .hidden else .visible) else none := by
  unfold mountSays
  cases found : line.idxOf? (ascii "-") with
  | none => simp [procMount, found]
  | some separator =>
    dsimp only
    by_cases proc : procMount point line = true
    · have long := whole proc separator found
      obtain ⟨⟨past, at_⟩, kind⟩ : (mountinfoOptions < separator ∧ (line)[mountinfoMountPoint]? = some point) ∧
          (line)[separator + 1]? = some (ascii "proc") := by
        simpa [procMount, found] using proc
      have before : mountinfoOptions < line.length := by omega
      rw [if_pos proc, if_neg (by omega), if_neg (by simp [at_, kind]), List.getElem?_eq_getElem long,
        List.getElem?_eq_getElem before]
      simp [hidesOthers, found, List.getElem?_eq_getElem long, List.getElem?_eq_getElem before]
    · rw [if_neg proc]
      split
      · rfl
      · rename_i near
        rw [if_pos]
        by_contra both
        refine proc ?_
        simp only [procMount, found, Option.any_some, Bool.and_eq_true, decide_eq_true_eq, beq_iff_eq]
        exact ⟨⟨by omega, by simpa using (not_or.mp both).1⟩, by simpa using (not_or.mp both).2⟩

theorem says_first {point : Bytes} (lines : List (List Bytes))
    (whole : ∀ line ∈ lines, procMount point line = true → HasOptions line) :
    lines.findSome? (mountSays point) =
      (lines.filter (procMount point)).head?.map fun line => if hidesOthers line then .hidden else .visible := by
  induction lines with
  | nil => rfl
  | cons line lines ih =>
    rw [List.findSome?_cons, mountSays_eq (whole line List.mem_cons_self),
      ih fun other member => whole other (List.mem_cons_of_mem line member)]
    cases proc : procMount point line <;> simp [proc]

end EdgeObserver.Process
