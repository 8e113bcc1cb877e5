import FixedIL.Pass.Context
import Mathlib.Data.List.Forall2

/-!
What it means that a step of a pass succeeds: the value it gives and the state it leaves.
-/
namespace FixedIL

theorem okOfOption {α ε : Type} {x : Except ε α} {a : α} (same : x.toOption = some a) :
    x = .ok a := by
  cases x with
  | error e => cases same
  | ok b =>
    cases same
    rfl

theorem partner {α β : Type} {R : α → β → Prop} {xs : List α} {ys : List β}
    (paired : List.Forall₂ R xs ys) {x : α} (member : x ∈ xs) : ∃ y ∈ ys, R x y := by
  induction paired with
  | nil => cases member
  | cons first rest ih =>
    rcases List.mem_cons.mp member with rfl | later
    · exact ⟨_, List.mem_cons_self, first⟩
    · obtain ⟨y, among, holds⟩ := ih later
      exact ⟨y, List.mem_cons_of_mem _ among, holds⟩

theorem keyedEntries {α β : Type} [BEq α] [LawfulBEq α] {entries : List (α × β)} {g : α → β}
    (same : ∀ k v, entries.lookup k = some v → v = g k) (key : α) :
    ∀ k v, (insertNew key (g key) entries).lookup k = some v → v = g k := by
  intro k v found
  rw [lookupInsertNew] at found
  split at found
  · rename_i hit
    rw [eq_of_beq hit]
    cases before : entries.lookup key with
    | none => simpa [before] using found.symm
    | some w =>
      rw [← same key w before]
      simpa [before] using found.symm
  · exact same k v found

namespace PassM

variable {α β : Type} {s s' : PassState}

def redefinition (i : Instr) (t : Temp) (op : Opcode) (type : Ty) (operands : List Value) : Instr :=
  { Instr.blank op with
    type := type, operands := operands, results := [⟨t.id, type⟩], loc := i.loc }

def Gives (x : PassM α) (s : PassState) (a : α) (s' : PassState) : Prop :=
  x.run.run s = (.ok a, s')

@[simp] theorem givesPure {a b : α} : (pure a : PassM α).Gives s b s' ↔ b = a ∧ s' = s := by
  constructor
  · rintro h
    cases h
    exact ⟨rfl, rfl⟩
  · rintro ⟨rfl, rfl⟩
    rfl

@[simp] theorem givesBind {x : PassM α} {g : α → PassM β} {b : β} :
    (x >>= g).Gives s b s' ↔ ∃ a mid, x.Gives s a mid ∧ (g a).Gives mid b s' := by
  unfold Gives
  rcases run : x.run.run s with ⟨result, mid⟩
  have split : (x >>= g).run.run s =
      match (result, mid) with
      | (.ok a, mid) => (g a).run.run mid
      | (.error e, mid) => (.error e, mid) := by
    rw [← run]
    simp only [ExceptT.run_bind, StateT.run_bind]
    rcases x.run.run s with ⟨_ | _, _⟩ <;> rfl
  rw [split]
  cases result with
  | error e =>
    constructor
    · exact nofun
    · rintro ⟨_, _, h, -⟩
      cases h
  | ok a =>
    constructor
    · exact fun h => ⟨a, mid, rfl, h⟩
    · rintro ⟨_, _, h, next⟩
      cases h
      exact next

@[simp] theorem givesFail {e : LoweringError} {a : α} : ¬ (fail e : PassM α).Gives s a s' := nofun

@[simp] theorem givesMalformed {site : Site} {i : Instr} {why : Malformed} {a : α} :
    ¬ (malformed site i why : PassM α).Gives s a s' := nofun

@[simp] theorem givesUnsupported {site : Site} {i : Instr} {a : α} :
    ¬ (unsupported site i : PassM α).Gives s a s' := nofun

@[simp] theorem givesGet {t : PassState} :
    (get : PassM PassState).Gives s t s' ↔ t = s ∧ s' = s := by
  constructor
  · intro h
    cases h
    exact ⟨rfl, rfl⟩
  · rintro ⟨rfl, rfl⟩
    rfl

@[simp] theorem givesModify {f : PassState → PassState} {u : PUnit} :
    (modify f : PassM PUnit).Gives s u s' ↔ s' = f s := by
  constructor
  · intro h
    cases h
    rfl
  · rintro rfl
    rfl

@[simp] theorem givesEmit {x : Emit α} {a : α} :
    (emit x).Gives s a s' ↔
      a = (x.run s.emission).1 ∧ s' = { s with emission := (x.run s.emission).2 } := by
  constructor
  · intro h
    cases h
    exact ⟨rfl, rfl⟩
  · rintro ⟨rfl, rfl⟩
    rfl

@[simp] theorem givesMapValue {id : TempId} {v : Value} {u : Unit} :
    (mapValue id v).Gives s u s' ↔ s' = s.mapValue id v := givesModify

@[simp] theorem givesKeepTemps {ids : List TempId} {u : Unit} :
    (keepTemps ids).Gives s u s' ↔
      s' = ids.foldl (fun s id => s.mapValue id (.temp id)) s := givesModify

@[simp] theorem givesMap {x : PassM α} {f : α → β} {b : β} :
    (f <$> x).Gives s b s' ↔ ∃ a, x.Gives s a s' ∧ b = f a := by
  rw [← bind_pure_comp, givesBind]
  simp

@[simp] theorem givesOperands {site : Site} {vs vs' : List Value} :
    (operands site vs).Gives s vs' s' ↔ vs' = s.operands site.encoding vs ∧ s' = s := by
  simp [operands]
  grind

@[simp] theorem givesOperand {site : Site} {v v' : Value} :
    (operand site v).Gives s v' s' ↔ v' = s.operand site.encoding v ∧ s' = s := by
  simp [operand]
  grind

@[simp] theorem givesIte {c : Prop} [Decidable c] {x y : PassM α} {a : α} :
    (if c then x else y).Gives s a s' ↔ (c ∧ x.Gives s a s') ∨ (¬ c ∧ y.Gives s a s') := by
  by_cases h : c <;> simp [h]

@[simp] theorem givesEmit' {x : Emit Value} {u : Unit} :
    (emit' x).Gives s u s' ↔ s' = { s with emission := (x.run s.emission).2 } := by
  simp [emit']

@[simp] theorem givesRedefine {i : Instr} {t : Temp} {op : Opcode} {type : Ty}
    {vs : List Value} {v : Value} :
    (redefine i t op type vs).Gives s v s' ↔ v = .temp t.id ∧
      s' = { s with emission := s.emission.push (redefinition i t op type vs) }.mapValue t.id
        (.temp t.id) := by
  constructor
  · intro h
    cases h
    exact ⟨rfl, rfl⟩
  · rintro ⟨rfl, rfl⟩
    rfl

theorem givesMapM {γ : Type} {g : γ → PassM β} {h : γ → β} {cs : List γ} {bs : List β}
    (each : ∀ c b s', (g c).Gives s b s' → b = h c ∧ s' = s) (gives : (cs.mapM g).Gives s bs s') :
    bs = cs.map h ∧ s' = s := by
  induction cs generalizing bs s' with
  | nil => simpa using gives
  | cons c cs ih =>
    rw [List.mapM_cons] at gives
    simp only [givesBind, givesPure] at gives
    obtain ⟨b, mid, head, rest, last, tail, rfl, rfl⟩ := gives
    obtain ⟨rfl, rfl⟩ := each c b mid head
    obtain ⟨rfl, rfl⟩ := ih tail
    exact ⟨rfl, rfl⟩

end PassM
end FixedIL
