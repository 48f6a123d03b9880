import TeenyToC.Compilation
import TeenyToC.Syntax

/-! The names in a program. What a name is for is told by the keyword right before it, so that the
words of a program list its mentions (`mentions`), and a tree lists them by its statements. A
compilation keeps of each mention what later ones are checked against: `Admits` is the check of a
whole list, and from the start it says that every variable is given a value before it is read, and
that no label stands twice. -/

namespace TeenyToC

/-- A variable that is given a value, a label, the target of a jump, or a variable that is read. -/
inductive Role where
  | target
  | label
  | jump
  | operand
  deriving DecidableEq, Repr

structure Mention where
  role : Role
  name : String
  deriving DecidableEq, Repr

/-- The role of a name right after a token of this kind. -/
def Kind.introduces : Kind → Role
  | .keyword .assign | .keyword .input => .target
  | .keyword .label => .label
  | .keyword .goto => .jump
  | _ => .operand

/-- The names among the words, the first of which has the role `r` if it is a name. -/
def mentions (r : Role) : List Word → List Mention
  | [] => []
  | (kind, text) :: ws =>
    if kind = .ident then ⟨r, text⟩ :: mentions .operand ws else mentions kind.introduces ws

def namesOf (r : Role) (ms : List Mention) : List String :=
  ms.filterMap fun m => if m.role = r then some m.name else none

/-- Every variable that is read stands after a place where it is given a value. -/
def AssignedBeforeRead (ms : List Mention) : Prop :=
  ∀ before x after, ms = before ++ ⟨.operand, x⟩ :: after → x ∈ namesOf .target before

/-- The rules on names that a program has to keep. -/
structure Scoped (ms : List Mention) : Prop where
  assigned : AssignedBeforeRead ms
  distinct : (namesOf .label ms).Nodup
  resolved : ∀ x ∈ namesOf .jump ms, x ∈ namesOf .label ms

def reading (xs : List String) : List Mention := xs.map fun x => ⟨.operand, x⟩

def Condition.reads (c : Condition) : List String := c.chain.items.flatMap Expression.reads

namespace Simple

def mentions : Simple → List Mention
  | printText _ => []
  | printValue e => reading e.reads
  | label name => [⟨.label, name⟩]
  | goto name => [⟨.jump, name⟩]
  | assign name e => ⟨.target, name⟩ :: reading e.reads
  | input name => [⟨.target, name⟩]

end Simple

namespace Program

def mentions : Program → List Mention
  | empty => []
  | simple s rest => s.mentions ++ rest.mentions
  | block _ c body rest => reading c.reads ++ body.mentions ++ rest.mentions

end Program

section
variable {r : Role} {ms ns : List Mention} {xs : List String}

@[simp] theorem namesOf_nil : namesOf r [] = [] := rfl

@[simp] theorem namesOf_cons (m : Mention) :
    namesOf r (m :: ms) = if m.role = r then m.name :: namesOf r ms else namesOf r ms := by
  unfold namesOf
  rw [List.filterMap_cons]
  split <;> simp_all

@[simp] theorem namesOf_append : namesOf r (ms ++ ns) = namesOf r ms ++ namesOf r ns :=
  List.filterMap_append

theorem namesOf_reading (hr : r ≠ .operand) : namesOf r (reading xs) = [] := by
  simp [namesOf, reading, hr.symm]

end

theorem Simple.namesOf_target (s : Simple) : namesOf .target s.mentions = s.target?.toList := by
  cases s <;> simp [mentions, target?, namesOf_reading]

theorem Simple.namesOf_label (s : Simple) : namesOf .label s.mentions = s.label?.toList := by
  cases s <;> simp [mentions, label?, namesOf_reading]

theorem Simple.namesOf_jump (s : Simple) : namesOf .jump s.mentions = s.jump?.toList := by
  cases s <;> simp [mentions, jump?, namesOf_reading]

namespace Program
variable (p : Program)

theorem namesOf_mentions {r : Role} (hr : r ≠ .operand) {name? : Simple → Option String}
    (h : ∀ s : Simple, namesOf r s.mentions = (name? s).toList) :
    namesOf r p.mentions = p.simples.filterMap name? := by
  induction p with
  | empty => rfl
  | simple s rest ih =>
    rw [mentions, simples, namesOf_append, h, ih, List.filterMap_cons]
    cases name? s <;> rfl
  | block b c body rest ihb ihr =>
    rw [mentions, simples, namesOf_append, namesOf_append, namesOf_reading hr, ihb, ihr,
      List.filterMap_append, List.nil_append]

theorem targets_eq : p.targets = (namesOf .target p.mentions).eraseDups := by
  rw [targets, p.namesOf_mentions (by decide) Simple.namesOf_target]

theorem labels_eq : p.labels = namesOf .label p.mentions :=
  (p.namesOf_mentions (by decide) Simple.namesOf_label).symm

theorem jumps_eq : p.jumps = namesOf .jump p.mentions :=
  (p.namesOf_mentions (by decide) Simple.namesOf_jump).symm

end Program

namespace Compilation

def mention (s : Compilation) (m : Mention) : Compilation :=
  match m.role with
  | .target => s.declare m.name
  | .label => { s with labels := m.name :: s.labels }
  | .jump => { s with jumps := ⟨.ident, m.name, 0⟩ :: s.jumps }
  | .operand => s

def mentionAll (s : Compilation) (ms : List Mention) : Compilation := ms.foldl mention s

def Allows (s : Compilation) (m : Mention) : Prop :=
  match m.role with
  | .label => m.name ∉ s.labels
  | .operand => m.name ∈ s.declared
  | .target | .jump => True

/-- Each mention is allowed after those before it. -/
def Admits (s : Compilation) : List Mention → Prop
  | [] => True
  | m :: ms => s.Allows m ∧ (s.mention m).Admits ms

variable {s : Compilation} {ms ns : List Mention}

theorem mentionAll_append : s.mentionAll (ms ++ ns) = (s.mentionAll ms).mentionAll ns :=
  List.foldl_append

theorem admits_append : s.Admits (ms ++ ns) ↔ s.Admits ms ∧ (s.mentionAll ms).Admits ns := by
  induction ms generalizing s with
  | nil => simp [Admits, mentionAll]
  | cons m ms ih => simp [Admits, ih, and_assoc, mentionAll]

theorem declared_declare (name : String) : (s.declare name).declared = s.declared.insert name := by
  unfold declare
  by_cases h : name ∈ s.declared <;> simp [h]

theorem labels_declare (name : String) : (s.declare name).labels = s.labels := by
  unfold declare
  split <;> rfl

theorem jumps_declare (name : String) : (s.declare name).jumps = s.jumps := by
  unfold declare
  split <;> rfl

theorem mentionAll_reading (xs : List String) : s.mentionAll (reading xs) = s := by
  induction xs with
  | nil => rfl
  | cons x xs ih => exact ih

theorem admits_reading {xs : List String} : s.Admits (reading xs) ↔ ∀ x ∈ xs, x ∈ s.declared := by
  induction xs with
  | nil => simp [Admits, reading]
  | cons x xs ih => simpa [Admits, Allows, reading, mention] using fun _ => ih

/-- An operand in a list is its first mention, or one of the others with the first before it. -/
theorem forall_operand_cons {m : Mention} {P : List Mention → String → Prop} :
    (∀ before x after, m :: ms = before ++ ⟨.operand, x⟩ :: after → P before x) ↔
      (m.role = .operand → P [] m.name) ∧
        ∀ before x after, ms = before ++ ⟨.operand, x⟩ :: after → P (m :: before) x := by
  constructor
  · intro h
    refine ⟨fun hm => h [] m.name ms ?_, fun before x after hms => h (m :: before) x after ?_⟩
    · rw [← hm]
      rfl
    · rw [hms]
      rfl
  · rintro ⟨hfirst, hrest⟩ before x after h
    cases before with
    | nil =>
      obtain ⟨rfl, -⟩ := List.cons.inj h
      exact hfirst rfl
    | cons b before =>
      obtain ⟨rfl, hms⟩ := List.cons.inj h
      exact hrest before x after hms

/-- What a list of mentions has to satisfy after some names have been declared and labels set. -/
theorem admits_iff : s.Admits ms ↔
    (∀ before x after, ms = before ++ ⟨.operand, x⟩ :: after →
      x ∈ s.declared ∨ x ∈ namesOf .target before) ∧
    (namesOf .label ms).Nodup ∧ ∀ x ∈ namesOf .label ms, x ∉ s.labels := by
  induction ms generalizing s with
  | nil => simp [Admits]
  | cons m ms ih =>
    rw [Admits, ih, forall_operand_cons]
    obtain ⟨role, name⟩ := m
    cases role with
    | target =>
      have hor (x : String) (p : Prop) :
          (x = name ∨ x ∈ s.declared) ∨ p ↔ x ∈ s.declared ∨ x = name ∨ p := by
        rw [or_assoc, or_left_comm]
      simp [Allows, mention, declared_declare, labels_declare, hor]
    | label =>
      simp only [Allows, mention, reduceCtorEq, if_true, if_false, namesOf_cons, List.mem_cons,
        List.nodup_cons, not_or, forall_eq_or_imp, false_implies, true_and]
      constructor
      · rintro ⟨hname, hread, hnodup, hfresh⟩
        exact ⟨hread, ⟨fun h => (hfresh name h).1 rfl, hnodup⟩, hname, fun x hx => (hfresh x hx).2⟩
      · rintro ⟨hread, ⟨hnew, hnodup⟩, hname, hfresh⟩
        exact ⟨hname, hread, hnodup, fun x hx => ⟨fun h => hnew (h ▸ hx), hfresh x hx⟩⟩
    | jump => simp [Allows, mention]
    | operand => simp [Allows, mention, and_assoc]

theorem admits_start_iff :
    start.Admits ms ↔ AssignedBeforeRead ms ∧ (namesOf .label ms).Nodup := by
  simp [admits_iff, start, AssignedBeforeRead]

theorem labels_mentionAll : (s.mentionAll ms).labels = (namesOf .label ms).reverse ++ s.labels := by
  induction ms generalizing s with
  | nil => rfl
  | cons m ms ih =>
    obtain ⟨role, name⟩ := m
    apply ih.trans
    cases role <;> simp [mention, labels_declare]

theorem jumps_mentionAll : (s.mentionAll ms).jumps =
    ((namesOf .jump ms).map fun x => ⟨.ident, x, 0⟩).reverse ++ s.jumps := by
  induction ms generalizing s with
  | nil => rfl
  | cons m ms ih =>
    obtain ⟨role, name⟩ := m
    apply ih.trans
    cases role <;> simp [mention, jumps_declare]

end Compilation

end TeenyToC
