import Mathlib.Data.List.Nodup

/-!
# Intrusive doubly linked queues

A queue whose links live in its members: every member knows its neighbours,
and the queue knows its two ends. The links represent a list without
repetition, and every operation represents the operation on that list.
-/

namespace LinkedQueue

open List Function

variable {α : Type}

structure Links (α : Type) where
  prev : α → Option α
  next : α → Option α
  head : Option α
  tail : Option α

namespace Links

def empty : Links α := ⟨fun _ => none, fun _ => none, none, none⟩

/-- The links of the members of `xs`, in this order, and of nothing else. -/
structure Represents (l : Links α) (xs : List α) : Prop where
  nodup : xs.Nodup
  head : l.head = xs.head?
  tail : l.tail = xs.getLast?
  link : ∀ as x bs, xs = as ++ x :: bs → l.prev x = as.getLast? ∧ l.next x = bs.head?
  off : ∀ x, x ∉ xs → l.prev x = none ∧ l.next x = none

section Reading

variable {l : Links α} {xs as bs : List α} {x y : α}

theorem represents_empty : (empty : Links α).Represents [] where
  nodup := nodup_nil
  head := rfl
  tail := rfl
  link := by simp
  off := fun _ _ => ⟨rfl, rfl⟩

theorem Represents.ne_of_next (h : l.Represents (as ++ x :: bs)) (hy : y ∈ as ∨ y ∈ bs) : y ≠ x := by
  have hnodup := h.nodup
  rw [nodup_middle, nodup_cons] at hnodup
  rintro rfl
  exact hnodup.1 (mem_append.mpr hy)

theorem getLast?_ne_of_nodup (h : (as ++ bs).Nodup) (hy : y ∈ bs) : as.getLast? ≠ some y :=
  fun hlast => disjoint_of_nodup_append h (mem_of_mem_getLast? hlast) hy

theorem head?_ne_of_nodup (h : (as ++ bs).Nodup) (hy : y ∈ as) : bs.head? ≠ some y :=
  fun hhead => disjoint_of_nodup_append h hy (mem_of_mem_head? hhead)

/-- The neighbours of a member where `x` stands between `as` and `bs`, and where it does not. -/
theorem neighbours_of_split {cs ds : List α} (x : α) (h : (as ++ bs).Nodup) (hsplit : as ++ bs = cs ++ y :: ds) :
    ∃ cs' ds', as ++ x :: bs = cs' ++ y :: ds' ∧
      (bs.head? = some y ∧ cs'.getLast? = some x ∧ cs.getLast? = as.getLast? ∨
        bs.head? ≠ some y ∧ cs'.getLast? = cs.getLast?) ∧
      (as.getLast? = some y ∧ ds'.head? = some x ∧ ds.head? = bs.head? ∨
        as.getLast? ≠ some y ∧ ds'.head? = ds.head?) := by
  have hside : (∃ m, cs = as ++ m ∧ bs = m ++ y :: ds) ∨ ∃ m, as = cs ++ y :: m ∧ ds = m ++ bs := by
    obtain hbehind | ⟨m, rfl, hm⟩ := append_eq_append_iff.mp hsplit
    · exact .inl hbehind
    · obtain ⟨rfl, rfl⟩ | ⟨m, rfl, rfl⟩ := cons_eq_append_iff.mp hm
      · exact .inl ⟨[], by simp⟩
      · exact .inr ⟨m, rfl, rfl⟩
  obtain ⟨m, rfl, rfl⟩ | ⟨m, rfl, rfl⟩ := hside
  · refine ⟨as ++ x :: m, ds, by simp, ?_, .inr ⟨getLast?_ne_of_nodup h (by simp), rfl⟩⟩
    cases m with
    | nil => simp
    | cons c m =>
      have hcy : c ≠ y := by
        rintro rfl
        have hbehind := (nodup_append.mp h).2.1
        simp at hbehind
      exact .inr ⟨by simp [hcy], by simp [getLast?_append, getLast?_cons]⟩
  · refine ⟨cs, m ++ x :: bs, by simp, .inr ⟨head?_ne_of_nodup h (by simp), rfl⟩, ?_⟩
    cases m with
    | nil => simp
    | cons b m =>
      have hfront : ((cs ++ [y]) ++ (b :: m)).Nodup := by simpa using (nodup_append.mp h).1
      have hlast : (cs ++ y :: b :: m).getLast? = (b :: m).getLast? := by simp [getLast?_append, getLast?_cons]
      refine .inr ⟨?_, rfl⟩
      rw [hlast]
      exact fun heq => disjoint_of_nodup_append hfront (by simp) (mem_of_mem_getLast? heq)

end Reading

section Editing

variable [DecidableEq α]

def setPrev (l : Links α) (x : α) (p : Option α) : Links α := { l with prev := update l.prev x p }
def setNext (l : Links α) (x : α) (n : Option α) : Links α := { l with next := update l.next x n }

def append (l : Links α) (x : α) : Links α :=
  match l.tail with
  | none => { l with head := some x, tail := some x }
  | some t => { (l.setNext t (some x)).setPrev x (some t) with tail := some x }

def prepend (l : Links α) (x : α) : Links α :=
  match l.head with
  | none => { l with head := some x, tail := some x }
  | some h => { (l.setPrev h (some x)).setNext x (some h) with head := some x }

def unlink (l : Links α) (x : α) : Links α := (l.setPrev x none).setNext x none

/-- `x` between two neighbours, or at an end. -/
def insert (l : Links α) (prev : Option α) (x : α) (next : Option α) : Links α :=
  let l := match prev with
    | none => { l with head := some x }
    | some p => l.setNext p (some x)
  let l := match next with
    | none => { l with tail := some x }
    | some n => l.setPrev n (some x)
  (l.setPrev x prev).setNext x next

def popleft (l : Links α) : Option (α × Links α) :=
  match l.head with
  | none => none
  | some x =>
    match l.next x with
    | none => some (x, { l with head := none, tail := none }.unlink x)
    | some n => some (x, { l.setPrev n none with head := some n }.unlink x)

def remove (l : Links α) (x : α) : Links α :=
  let prev := l.prev x
  let next := l.next x
  let l := match prev with
    | none => { l with head := next }
    | some p => l.setNext p next
  let l := match next with
    | none => { l with tail := prev }
    | some n => l.setPrev n prev
  l.unlink x

/-- A single member has no neighbours, so the ends are asked as well. -/
def contains (l : Links α) (x : α) : Bool :=
  l.head = some x ∨ l.tail = some x ∨ (l.prev x).isSome ∨ (l.next x).isSome

variable {l : Links α} {xs as bs : List α} {x y : α}

theorem Represents.contains_iff (h : l.Represents xs) : l.contains x = true ↔ x ∈ xs := by
  simp only [contains, decide_eq_true_eq]
  constructor
  · rintro (hhead | htail | hprev | hnext)
    · rw [h.head] at hhead
      exact mem_of_mem_head? hhead
    · rw [h.tail] at htail
      exact mem_of_mem_getLast? htail
    · by_contra hmem
      simp [(h.off x hmem).1] at hprev
    · by_contra hmem
      simp [(h.off x hmem).2] at hnext
  · intro hmem
    obtain ⟨as, bs, rfl⟩ := append_of_mem hmem
    cases as with
    | nil => exact .inl h.head
    | cons a as =>
      have hprev := (h.link _ x bs rfl).1
      rw [getLast?_cons] at hprev
      exact .inr (.inr (.inl (by rw [hprev]; rfl)))

section Insert

variable {p n : Option α}

theorem insert_prev (l : Links α) :
    (l.insert p x n).prev y = if y = x then p else if n = some y then some x else l.prev y := by
  simp only [insert, setPrev, setNext, update_apply]
  cases p <;> cases n <;> simp [update_apply, eq_comm]

theorem insert_next (l : Links α) :
    (l.insert p x n).next y = if y = x then n else if p = some y then some x else l.next y := by
  simp only [insert, setPrev, setNext, update_apply]
  cases p <;> cases n <;> simp [update_apply, eq_comm]

theorem insert_head (l : Links α) : (l.insert p x n).head = if p = none then some x else l.head := by
  simp only [insert, setPrev, setNext]
  cases p <;> cases n <;> simp

theorem insert_tail (l : Links α) : (l.insert p x n).tail = if n = none then some x else l.tail := by
  simp only [insert, setPrev, setNext]
  cases p <;> cases n <;> simp

theorem Represents.insert (h : l.Represents (as ++ bs)) (hx : x ∉ as ++ bs) :
    (l.insert as.getLast? x bs.head?).Represents (as ++ x :: bs) := by
  have hxa : x ∉ as := fun hmem => hx (mem_append_left bs hmem)
  have hxb : x ∉ bs := fun hmem => hx (mem_append_right as hmem)
  refine ⟨nodup_middle.mpr (nodup_cons.mpr ⟨hx, h.nodup⟩), ?_, ?_, fun cs y ds hsplit => ?_, fun y hy => ?_⟩
  · rw [insert_head, h.head]
    cases as <;> simp
  · rw [insert_tail, h.tail]
    cases bs with
    | nil => simp
    | cons b bs => simp [getLast?_append, getLast?_cons]
  · rw [insert_prev, insert_next]
    by_cases hyx : y = x
    · subst hyx
      obtain ⟨rfl, -, rfl⟩ := (append_cons_inj_of_notMem hxa hxb).mp hsplit
      rw [if_pos rfl, if_pos rfl]
      exact ⟨rfl, rfl⟩
    have hmem : y ∈ as ++ bs := by
      have hmem : y ∈ as ++ x :: bs := by simp [hsplit]
      simpa [hyx] using hmem
    obtain ⟨us, vs, hgap⟩ := append_of_mem hmem
    obtain ⟨cs', ds', hfull, hprev, hnext⟩ := neighbours_of_split x h.nodup hgap
    have hnodup : (cs ++ y :: ds).Nodup := hsplit ▸ nodup_middle.mpr (nodup_cons.mpr ⟨hx, h.nodup⟩)
    obtain ⟨hcs, hds⟩ := not_or.mp fun hor => (nodup_middle.mp hnodup |> nodup_cons.mp).1 (mem_append.mpr hor)
    obtain ⟨rfl, -, rfl⟩ := (append_cons_inj_of_notMem hcs hds).mp (hsplit.symm.trans hfull)
    obtain ⟨hyprev, hynext⟩ := h.link us y vs hgap
    rw [if_neg hyx, if_neg hyx, hyprev, hynext]
    constructor
    · obtain ⟨hhead, hlast, -⟩ | ⟨hhead, hlast⟩ := hprev <;> simp [hhead, hlast]
    · obtain ⟨hlast, hhead, -⟩ | ⟨hlast, hhead⟩ := hnext <;> simp [hhead, hlast]
  · simp only [mem_append, mem_cons, not_or] at hy
    have hhead : bs.head? ≠ some y := fun hhead => hy.2.2 (mem_of_mem_head? hhead)
    have hlast : as.getLast? ≠ some y := fun hlast => hy.1 (mem_of_mem_getLast? hlast)
    rw [insert_prev, insert_next, if_neg hy.2.1, if_neg hy.2.1, if_neg hhead, if_neg hlast]
    exact h.off y (by simp [hy.1, hy.2.2])

end Insert

theorem Represents.prepend (h : l.Represents xs) (hx : x ∉ xs) : (l.prepend x).Represents (x :: xs) := by
  have hlinks : l.prepend x = l.insert none x xs.head? := by
    obtain ⟨hprev, hnext⟩ := h.off x hx
    cases xs with
    | nil => simp [Links.prepend, h.head, Links.insert, setPrev, setNext, hprev, hnext]
    | cons y ys =>
      have hne : x ≠ y := fun heq => hx (by simp [heq])
      simp [Links.prepend, h.head, Links.insert, setPrev, setNext, update_of_ne hne, hprev]
  rw [hlinks]
  have hrep : l.Represents ([] ++ xs) := h
  exact hrep.insert hx

theorem Represents.append (h : l.Represents xs) (hx : x ∉ xs) : (l.append x).Represents (xs ++ [x]) := by
  have hlinks : l.append x = l.insert xs.getLast? x none := by
    obtain ⟨hprev, hnext⟩ := h.off x hx
    rw [← h.tail, Links.append]
    cases htail : l.tail with
    | none => simp [Links.insert, setPrev, setNext, hprev, hnext]
    | some t =>
      have hne : x ≠ t := by
        rintro rfl
        exact hx (mem_of_mem_getLast? (h.tail ▸ htail))
      simp [Links.insert, setPrev, setNext, update_of_ne hne, hnext]
  rw [hlinks]
  have hrep : l.Represents (xs ++ []) := by simpa using h
  simpa using hrep.insert (by simpa using hx)

theorem remove_prev (l : Links α) (x y : α) :
    (l.remove x).prev y = if y = x then none else if l.next x = some y then l.prev x else l.prev y := by
  simp only [remove, unlink, setPrev, setNext, update_apply]
  cases l.prev x <;> cases hnext : l.next x <;> simp [update_apply, eq_comm]

theorem remove_next (l : Links α) (x y : α) :
    (l.remove x).next y = if y = x then none else if l.prev x = some y then l.next x else l.next y := by
  simp only [remove, unlink, setPrev, setNext, update_apply]
  cases l.prev x <;> cases hnext : l.next x <;> simp [update_apply, eq_comm]

theorem remove_head (l : Links α) (x : α) : (l.remove x).head = if l.prev x = none then l.next x else l.head := by
  simp only [remove, unlink, setPrev, setNext]
  cases l.prev x <;> cases l.next x <;> simp

theorem remove_tail (l : Links α) (x : α) : (l.remove x).tail = if l.next x = none then l.prev x else l.tail := by
  simp only [remove, unlink, setPrev, setNext]
  cases l.prev x <;> cases l.next x <;> simp

theorem Represents.remove (h : l.Represents (as ++ x :: bs)) : (l.remove x).Represents (as ++ bs) := by
  obtain ⟨hprev, hnext⟩ := h.link as x bs rfl
  have hnodup : (as ++ bs).Nodup := (nodup_cons.mp (nodup_middle.mp h.nodup)).2
  refine ⟨hnodup, ?_, ?_, fun cs y ds hsplit => ?_, fun y hy => ?_⟩
  · rw [remove_head, hprev, hnext, h.head]
    cases as <;> simp
  · rw [remove_tail, hprev, hnext, h.tail]
    cases bs with
    | nil => simp
    | cons b bs => simp [getLast?_append]
  · have hy : y ≠ x := h.ne_of_next (mem_append.mp (by simp [hsplit]))
    obtain ⟨cs', ds', hfull, hyprev, hynext⟩ := neighbours_of_split x hnodup hsplit
    rw [remove_prev, remove_next, if_neg hy, if_neg hy, hprev, hnext, (h.link cs' y ds' hfull).1,
      (h.link cs' y ds' hfull).2]
    constructor
    · obtain ⟨hhead, -, hlast⟩ | ⟨hhead, hlast⟩ := hyprev <;> simp [hhead, hlast]
    · obtain ⟨hlast, -, hhead⟩ | ⟨hlast, hhead⟩ := hynext <;> simp [hhead, hlast]
  · rw [remove_prev, remove_next]
    by_cases hyx : y = x
    · simp [hyx]
    · have hoff := h.off y (by simpa [hyx] using hy)
      have hb : bs.head? ≠ some y := fun hhead => hy (by simp [mem_of_mem_head? hhead])
      have ha : as.getLast? ≠ some y := fun hlast => hy (by simp [mem_of_mem_getLast? hlast])
      rw [if_neg hyx, if_neg hyx, hprev, hnext, if_neg hb, if_neg ha]
      exact hoff

theorem popleft_eq_remove (h : l.Represents (x :: xs)) : l.popleft = some (x, l.remove x) := by
  have hprev := (h.link [] x xs rfl).1
  have hhead : l.head = some x := h.head
  simp only [getLast?_nil] at hprev
  cases hnext : l.next x <;>
    simp [Links.popleft, Links.remove, unlink, setPrev, setNext, hprev, hhead, hnext]

theorem Represents.popleft (h : l.Represents (x :: xs)) :
    ∃ l', l.popleft = some (x, l') ∧ l'.Represents xs :=
  have hsplit : l.Represents ([] ++ x :: xs) := h
  ⟨l.remove x, popleft_eq_remove h, hsplit.remove⟩

end Editing

end Links

end LinkedQueue
