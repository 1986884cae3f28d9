import CoolTyping.TypeName

/-!
# Sets of types

Sets that remember the order in which their members came. The order shows when a set is written out;
two sets are the same whatever the order.
-/

namespace CoolTyping

structure TypeSet where
  toList : List TypeName
  nodup : toList.Nodup
deriving DecidableEq

namespace TypeSet

instance : Membership TypeName TypeSet := ⟨fun s t => t ∈ s.toList⟩

@[simp] theorem mem_toList {s : TypeSet} {t : TypeName} : t ∈ s.toList ↔ t ∈ s := Iff.rfl

def contains (s : TypeSet) (t : TypeName) : Bool := s.toList.contains t

def isEmpty (s : TypeSet) : Bool := s.toList.isEmpty

def size (s : TypeSet) : Nat := s.toList.length

def any (s : TypeSet) (p : TypeName → Bool) : Bool := s.toList.any p

def all (s : TypeSet) (p : TypeName → Bool) : Bool := s.toList.all p

def empty : TypeSet := ⟨[], List.nodup_nil⟩

def single (t : TypeName) : TypeSet := ⟨[t], by simp⟩

/-- A new member comes last. -/
def insert (s : TypeSet) (t : TypeName) : TypeSet :=
  if h : s.contains t then s
  else ⟨s.toList ++ [t], by
    have h : t ∉ s.toList := by simpa [contains] using h
    simpa [List.nodup_append, s.nodup] using fun a ha (e : a = t) => h (e ▸ ha)⟩

/-- The members of `s`, and then the others of the list. -/
def insertAll (s : TypeSet) (ts : List TypeName) : TypeSet := ts.foldl insert s

/-- The members of the list, each where it comes first. -/
def ofList (ts : List TypeName) : TypeSet := empty.insertAll ts

/-- The members of `s`, and then the others of `u`. -/
def union (s u : TypeSet) : TypeSet := s.insertAll u.toList

def filter (s : TypeSet) (p : TypeName → Bool) : TypeSet := ⟨s.toList.filter p, s.nodup.filter p⟩

/-- The members of `s` that are in `u`, in the order of `s`. -/
def inter (s u : TypeSet) : TypeSet := s.filter u.contains

/-- The same members, in whatever order. -/
def same (s u : TypeSet) : Bool := s.all u.contains && u.all s.contains

/-! ## Membership -/

variable {s u : TypeSet} {t x : TypeName}

@[simp] theorem contains_iff : s.contains t = true ↔ t ∈ s := by
  simp [contains]

@[simp] theorem not_mem_empty : t ∉ empty := List.not_mem_nil

@[simp] theorem mem_single : t ∈ single x ↔ t = x := List.mem_singleton

@[simp] theorem mem_insert : t ∈ s.insert x ↔ t ∈ s ∨ t = x := by
  unfold insert
  split
  · rename_i h
    rw [contains_iff] at h
    exact ⟨.inl, fun h' => h'.elim id (· ▸ h)⟩
  · rw [← mem_toList]
    simp

@[simp] theorem mem_insertAll {ts : List TypeName} : t ∈ s.insertAll ts ↔ t ∈ s ∨ t ∈ ts := by
  unfold insertAll
  induction ts generalizing s with
  | nil => simp
  | cons y ys ih => simp [ih, or_assoc]

@[simp] theorem mem_ofList {ts : List TypeName} : t ∈ ofList ts ↔ t ∈ ts := by
  simp [ofList]

@[simp] theorem mem_union : t ∈ s.union u ↔ t ∈ s ∨ t ∈ u := by
  simp [union]

@[simp] theorem mem_filter {p : TypeName → Bool} : t ∈ s.filter p ↔ t ∈ s ∧ p t = true := by
  rw [← mem_toList]
  simp [filter]

@[simp] theorem mem_inter : t ∈ s.inter u ↔ t ∈ s ∧ t ∈ u := by
  simp [inter]

theorem same_iff : s.same u = true ↔ ∀ t, t ∈ s ↔ t ∈ u := by
  simp only [same, all, Bool.and_eq_true, List.all_eq_true, contains_iff, mem_toList]
  exact ⟨fun h t => ⟨h.1 t, h.2 t⟩, fun h => ⟨fun t => (h t).1, fun t => (h t).2⟩⟩

end TypeSet

end CoolTyping
