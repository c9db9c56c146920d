import Mathlib.Data.List.Basic

/-!
# Reading bytes one piece after the other

A reader goes over a file of bytes. It gives a value, refuses with an error of
its own, or fails with an error that is not its own. `Reads r bytes x` says
that `r` takes exactly `bytes` and gives `x` whatever follows, and refuses where
the file breaks off inside them; the rules follow the way readers are composed.
-/

namespace ByteCursor

open List

/-- The offset in the file and what is left of it. -/
structure Cursor where
  pos : Nat
  rest : List UInt8
  deriving DecidableEq, Repr

inductive Failure (E : Type) where
  /-- The reader's own error. -/
  | refused (e : E)
  | foreign
  deriving DecidableEq, Repr

abbrev Reader (E A : Type) := StateT Cursor (Except (Failure E)) A

variable {E A B C : Type}

def refuse (e : E) : Reader E A := throw (.refused e)

/-- `count` bytes; `truncated` is the error with the bytes wanted, the offset and the bytes there were. -/
def take (truncated : Nat → Nat → Nat → E) (count : Nat) : Reader E (List UInt8) := fun cur =>
  let data := cur.rest.take count
  if data.length ≠ count then .error (.refused (truncated count cur.pos data.length))
  else .ok (data, ⟨cur.pos + data.length, cur.rest.drop count⟩)

/-- `[r() for _ in range(count)]` -/
def repeatRead (r : Reader E A) : Nat → Reader E (List A)
  | 0 => pure []
  | count + 1 => do
    let x ← r
    let xs ← repeatRead r count
    pure (x :: xs)

structure Reads (r : Reader E A) (bytes : List UInt8) (x : A) : Prop where
  whole : ∀ pos rest, r.run ⟨pos, bytes ++ rest⟩ = .ok (x, ⟨pos + bytes.length, rest⟩)
  short : ∀ pos front, front <+: bytes → front ≠ bytes → ∃ e, r.run ⟨pos, front⟩ = .error (.refused e)

/-- The reader never fails with an error that is not its own. -/
def Clean (r : Reader E A) : Prop := ∀ cur, r.run cur ≠ .error .foreign

section Rules

variable {r : Reader E A} {f : A → Reader E B} {bytes bytes' : List UInt8} {x : A} {y : B}

theorem Reads.pure (x : A) : Reads (Pure.pure x : Reader E A) [] x where
  whole _ _ := rfl
  short _ _ hfront hne := absurd (prefix_nil.mp hfront) hne

/-- A file that breaks off inside two pieces breaks off inside the first, or behind it inside the second. -/
theorem prefix_append_cases {front first second : List UInt8} (h : front <+: first ++ second)
    (hne : front ≠ first ++ second) :
    (front <+: first ∧ front ≠ first) ∨ ∃ more, front = first ++ more ∧ more <+: second ∧ more ≠ second := by
  by_cases hle : first.length ≤ front.length
  · right
    obtain ⟨more, rfl⟩ := prefix_of_prefix_length_le (prefix_append first second) h hle
    exact ⟨more, rfl, (prefix_append_right_inj first).mp h, fun heq => hne (heq ▸ rfl)⟩
  · left
    refine ⟨prefix_of_prefix_length_le h (prefix_append first second) (by omega), ?_⟩
    rintro rfl
    exact hle (Nat.le_refl _)

theorem Reads.bind (hr : Reads r bytes x) (hf : Reads (f x) bytes' y) : Reads (r >>= f) (bytes ++ bytes') y where
  whole pos rest := by
    rw [StateT.run_bind, append_assoc, hr.whole]
    have hrest := hf.whole (pos + bytes.length) rest
    rw [Nat.add_assoc, ← length_append] at hrest
    exact hrest
  short pos front hfront hne := by
    rw [StateT.run_bind]
    obtain ⟨hin, hpart⟩ | ⟨more, rfl, hmore, hpart⟩ := prefix_append_cases hfront hne
    · obtain ⟨e, he⟩ := hr.short pos front hin hpart
      exact ⟨e, by rw [he]; rfl⟩
    · obtain ⟨e, he⟩ := hf.short (pos + bytes.length) more hmore hpart
      exact ⟨e, by rw [hr.whole]; exact he⟩

/-- A last step that takes no bytes. -/
theorem Reads.then_pure (hr : Reads r bytes x) (g : A → B) : Reads (r >>= fun x => Pure.pure (g x)) bytes (g x) := by
  have := hr.bind (f := fun x => Pure.pure (g x)) (Reads.pure (g x))
  rwa [append_nil] at this

theorem reads_take (truncated : Nat → Nat → Nat → E) (bytes : List UInt8) :
    Reads (take truncated bytes.length) bytes bytes where
  whole pos rest := by
    simp [take, StateT.run]
  short pos front hfront hne := by
    have hlt : front.length < bytes.length := by
      refine Nat.lt_of_le_of_ne hfront.length_le fun heq => hne ?_
      exact hfront.eq_of_length heq
    have htake : front.take bytes.length = front := take_of_length_le (Nat.le_of_lt hlt)
    exact ⟨truncated bytes.length pos front.length, by simp [take, StateT.run, htake, Nat.ne_of_lt hlt]⟩

theorem Reads.repeatRead {encode : C → List UInt8} {value : C → A} {items : List C}
    (h : ∀ c ∈ items, Reads r (encode c) (value c)) :
    Reads (repeatRead r items.length) (items.flatMap encode) (items.map value) := by
  induction items with
  | nil => exact Reads.pure []
  | cons c items ih =>
    have hrest := (ih fun c hc => h c (mem_cons_of_mem _ hc)).then_pure fun xs => value c :: xs
    exact (h c mem_cons_self).bind hrest

theorem Clean.pure (x : A) : Clean (Pure.pure x : Reader E A) := fun _ h => nomatch h

theorem clean_refuse (e : E) : Clean (refuse e : Reader E A) := fun _ h => nomatch h

theorem Clean.bind (hr : Clean r) (hf : ∀ x, Clean (f x)) : Clean (r >>= f) := by
  intro cur h
  rw [StateT.run_bind] at h
  cases hrun : r.run cur with
  | error e =>
    rw [hrun] at h
    cases h
    exact hr cur hrun
  | ok out =>
    rw [hrun] at h
    exact hf out.1 out.2 h

theorem clean_take (truncated : Nat → Nat → Nat → E) (count : Nat) : Clean (take truncated count) := by
  intro cur h
  simp only [take, StateT.run] at h
  split at h <;> cases h

theorem Clean.repeatRead (hr : Clean r) (count : Nat) : Clean (repeatRead r count) := by
  induction count with
  | zero => exact Clean.pure []
  | succ count ih => exact hr.bind fun x => ih.bind fun xs => Clean.pure (x :: xs)

/-- What a `take` gives has the length that was asked for. -/
theorem clean_take_bind (truncated : Nat → Nat → Nat → E) {count : Nat} {f : List UInt8 → Reader E B}
    (hf : ∀ data, data.length = count → Clean (f data)) : Clean (take truncated count >>= f) := by
  intro cur h
  rw [StateT.run_bind] at h
  simp only [take, StateT.run] at h
  split at h
  · cases h
  · rename_i hlen
    exact hf _ (not_not.mp hlen) _ h

end Rules

end ByteCursor
