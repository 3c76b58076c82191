import Jeos.Lib.Fallible

/-!
# Trees of names

A tree is a map from node numbers to nodes : a directory with its entries, or a leaf. `walk` follows a
list of names from a node, and fails where a name is missing or a node on the way is no directory.

A program that goes from one node to the next, and fails where the tree does, follows a list of names as
`walk` does (`foldlM_walk`). It may be in a state that only fits the nodes of `P`, which the names
then must not leave.
-/

namespace FileTree

variable {N ν α : Type}

inductive Node (N ν α : Type) where
  | dir (entries : N → Option ν)
  | leaf (data : α)

inductive Fault where
  | notFound
  | notDir
  deriving DecidableEq

variable (T : ν → Node N ν α)

/-- One name. -/
def next (i : ν) (name : N) : Except Fault ν :=
  match T i with
  | .leaf _ => .error .notDir
  | .dir entries =>
    match entries name with
    | none => .error .notFound
    | some j => .ok j

def walk (i : ν) (names : List N) : Except Fault ν := names.foldlM (next T) i

/-- All nodes on the way have the property `P`. -/
def Within (P : ν → Prop) (i : ν) (names : List N) : Prop :=
  ∀ ns j, ns <+: names → walk T i ns = .ok j → P j

variable {T} {P : ν → Prop} {i j : ν} {name : N} {names : List N}

@[simp] theorem walk_nil : walk T i [] = .ok i := rfl

theorem walk_cons_ok (h : next T i name = .ok j) : walk T i (name :: names) = walk T j names := by
  change (next T i name >>= fun j => names.foldlM (next T) j) = _
  rw [h]
  rfl

theorem walk_cons_error {e : Fault} (h : next T i name = .error e) :
    walk T i (name :: names) = .error e := by
  change (next T i name >>= fun j => names.foldlM (next T) j) = _
  rw [h]
  rfl

theorem Within.head (h : Within T P i names) : P i := h [] i List.nil_prefix walk_nil

theorem Within.tail (h : Within T P i (name :: names)) (hn : next T i name = .ok j) :
    Within T P j names := fun ns k hns hk =>
  h (name :: ns) k ((List.cons_prefix_cons).2 ⟨rfl, hns⟩) ((walk_cons_ok hn).trans hk)

/-- A property that every step keeps. -/
theorem Within.of_closed (h : ∀ i, P i → ∀ name j, next T i name = .ok j → P j) (hi : P i) :
    Within T P i names := by
  intro ns j hns hj
  clear hns
  induction ns generalizing i with
  | nil =>
    rw [walk_nil] at hj
    exact Except.ok.inj hj ▸ hi
  | cons name ns ih =>
    cases hn : next T i name with
    | error e =>
      rw [walk_cons_error hn] at hj
      cases hj
    | ok k =>
      rw [walk_cons_ok hn] at hj
      exact ih (h i hi name k hn) hj

variable {σ ε β : Type} {R : ν → β → σ → Prop}

/-- A result of a program that fits the one of the tree. -/
def Fits (err : Fault → ε) (R : ν → β → σ → Prop) (r : Option (Except ε β × σ)) :
    Except Fault ν → Prop
  | .ok j => ∃ y t, r = some (.ok y, t) ∧ R j y t
  | .error e => ∃ t, r = some (.error (err e), t)

/-- A program that does every step as the tree does. -/
theorem foldlM_walk {f : β → N → Fallible σ ε β} {err : Fault → ε} {Good : N → Prop}
    (hstep : ∀ i x s name, R i x s → P i → (∀ j, next T i name = .ok j → P j) → Good name →
      Fits err R (f x name s) (next T i name))
    (hgood : ∀ name ∈ names, Good name) {x : β} {s : σ} (hx : R i x s) (hP : Within T P i names) :
    Fits err R (names.foldlM f x s) (walk T i names) := by
  induction names generalizing i x s with
  | nil => exact ⟨x, s, rfl, hx⟩
  | cons name names ih =>
    have hnext : ∀ j, next T i name = .ok j → P j := fun j hj => (hP.tail hj).head
    have hfits := hstep i x s name hx hP.head hnext (hgood name List.mem_cons_self)
    rw [List.foldlM_cons]
    cases hn : next T i name with
    | ok j =>
      rw [hn] at hfits
      obtain ⟨y, t, hrun, hy⟩ := hfits
      rw [Fallible.bind_ok hrun, walk_cons_ok hn]
      exact ih (fun n h => hgood n (List.mem_cons_of_mem _ h)) hy (hP.tail hn)
    | error e =>
      rw [hn] at hfits
      obtain ⟨t, hrun⟩ := hfits
      rw [Fallible.bind_error hrun, walk_cons_error hn]
      exact ⟨t, rfl⟩

end FileTree
