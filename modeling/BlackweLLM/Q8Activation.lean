import BlackweLLM.StepRun

/-!
# The cache of quantised activations

`gguf_q8_activation_cache` of `gguf_linear.py` over the scratch buffers of
`NativeGgufQK`. The cache knows a source by its object id, version and shape;
the buffers are shared by all sources of one shape.
-/

namespace Q8Activation

open List StepRun

/-- The shape, device and element size in which a projection flattens its source. -/
structure Form where
  device : Nat
  rows : Nat
  cols : Nat
  elementSize : Nat
  deriving DecidableEq, Repr

/-- The key of a scratch buffer: device, `M` and padded `K`. -/
structure Workspace where
  device : Nat
  rows : Nat
  paddedCols : Nat
  deriving DecidableEq, Repr

def Form.workspace (form : Form) : Workspace := ⟨form.device, form.rows, (form.cols + 511) / 512 * 512⟩

structure Key where
  id : Nat
  version : Nat
  form : Form
  deriving DecidableEq, Repr

/-- A tensor object. `stamp` is the time of its last write and no part of the program. -/
structure Obj (Content : Type) where
  id : Nat
  version : Nat
  content : Content
  stamp : Nat

def Obj.key {Content : Type} (obj : Obj Content) (form : Form) : Key := ⟨obj.id, obj.version, form⟩

structure State (Content Quantised : Type) where
  /-- The tensors that are alive, by the names the caller has for them. -/
  objects : List (Nat × Obj Content)
  cache : List (Key × Workspace)
  workspaces : List Workspace
  cells : Workspace → Option Quantised
  capturing : Bool
  /-- The time, and the form and stamp that a buffer was last filled from. -/
  clock : Nat
  filled : Workspace → Option (Form × Nat)

variable {Content Quantised : Type} (quantize : Form → Content → Quantised)

/-- The scope opens: the buffers are there from earlier scopes. -/
def enter (workspaces : List Workspace) (cells : Workspace → Option Quantised) : State Content Quantised :=
  ⟨[], [], workspaces, cells, false, 0, fun _ => none⟩

/-- `_activation_workspace`; a buffer that is missing during a capture is an error. -/
def activationWorkspace (s : State Content Quantised) (w : Workspace) : Option (State Content Quantised) :=
  if w ∈ s.workspaces then some s
  else if s.capturing then none
  else some { s with workspaces := w :: s.workspaces, cells := Function.update s.cells w none }

def quantizeQ81 (s : State Content Quantised) (obj : Obj Content) (form : Form) :
    Option (State Content Quantised × Workspace) :=
  (activationWorkspace s form.workspace).map fun s =>
    ({ s with
        cells := Function.update s.cells form.workspace (some (quantize form obj.content))
        filled := Function.update s.filled form.workspace (some (form, obj.stamp)) },
      form.workspace)

def cachedQ8Activation (s : State Content Quantised) (obj : Obj Content) (form : Form) :
    Option (State Content Quantised × Workspace) :=
  match s.cache.lookup (obj.key form) with
  | some w => some (s, w)
  | none => (quantizeQ81 quantize s obj form).map fun r =>
    ({ r.1 with cache := r.1.cache ++ [(obj.key form, r.2)] }, r.2)

inductive Op (Content : Type) where
  /-- A tensor is made; its id is any that no living tensor has. -/
  | create (name id : Nat) (content : Content)
  | free (name : Nat)
  /-- An in-place operation, which counts the version up. -/
  | write (name : Nat) (content : Content)
  /-- A kernel writes through a raw pointer. -/
  | kernelWrite (name : Nat) (content : Content)
  /-- A linear projects the tensor. -/
  | project (name : Nat) (form : Form)
  | capture (on : Bool)
  deriving Repr

/-- A new content under a new stamp. -/
def store (s : State Content Quantised) (name : Nat) (f : Nat → Obj Content) : State Content Quantised :=
  { s with objects := (name, f s.clock) :: s.objects.filter fun o => o.1 != name, clock := s.clock + 1 }

def next (s : State Content Quantised) : Op Content → Option (State Content Quantised)
  | .create name id content =>
    if (s.objects.all fun o => o.1 != name && o.2.id != id) = true then
      some (store s name fun stamp => ⟨id, 0, content, stamp⟩)
    else none
  | .free name => some { s with objects := s.objects.filter fun o => o.1 != name }
  | .write name content =>
    (s.objects.lookup name).map fun obj => store s name fun stamp => ⟨obj.id, obj.version + 1, content, stamp⟩
  | .kernelWrite name content =>
    (s.objects.lookup name).map fun obj => store s name fun stamp => ⟨obj.id, obj.version, content, stamp⟩
  | .project name form =>
    (s.objects.lookup name).bind fun obj => (cachedQ8Activation quantize s obj form).map Prod.fst
  | .capture on => some { s with capturing := on }

/-- The projection gets the buffer of its form, and that holds the quantised content of its source. -/
def Fresh (s : State Content Quantised) : Op Content → Prop
  | .project name form => ∀ obj, s.objects.lookup name = some obj →
    ∀ s' w, cachedQ8Activation quantize s obj form = some (s', w) →
      w = form.workspace ∧ s'.cells w = some (quantize form obj.content)
  | _ => True

/-- Where the cache knows the key, its buffer was last filled in this form from this source, and the source not
written since. -/
def Undisturbed (s : State Content Quantised) : Op Content → Prop
  | .project name form => ∀ obj, s.objects.lookup name = some obj →
    s.cache.lookup (obj.key form) ≠ none → s.filled form.workspace = some (form, obj.stamp)
  | _ => True

structure Books (s : State Content Quantised) : Prop where
  stamps_lt : ∀ o ∈ s.objects, o.2.stamp < s.clock
  filled_lt : ∀ w form stamp, s.filled w = some (form, stamp) → stamp < s.clock
  filled_cells : ∀ w form stamp, s.filled w = some (form, stamp) → ∀ o ∈ s.objects, o.2.stamp = stamp →
    s.cells w = some (quantize form o.2.content)
  stamps_distinct : ∀ o ∈ s.objects, ∀ o' ∈ s.objects, o.2.stamp = o'.2.stamp → o = o'
  filled_known : ∀ w, s.filled w ≠ none → w ∈ s.workspaces
  cached_workspace : ∀ e ∈ s.cache, e.2 = e.1.form.workspace

variable {quantize} {s s' : State Content Quantised} {name : Nat} {obj : Obj Content} {form : Form}

section Steps

theorem mem_of_lookup {K V : Type} [DecidableEq K] {l : List (K × V)} {k : K} {v : V} (h : l.lookup k = some v) :
    (k, v) ∈ l := by
  obtain ⟨before, after, rfl, -⟩ := lookup_eq_some_iff.mp h
  exact mem_append_right _ mem_cons_self

theorem books_enter (workspaces : List Workspace) (cells : Workspace → Option Quantised) :
    Books quantize (enter workspaces cells : State Content Quantised) where
  stamps_lt _ h := nomatch h
  filled_lt _ _ _ h := nomatch h
  filled_cells _ _ _ h := nomatch h
  stamps_distinct _ h := nomatch h
  filled_known _ h := absurd rfl h
  cached_workspace _ h := nomatch h

section

variable (h : Books quantize s)
include h

theorem Books.subset {objects : List (Nat × Obj Content)} (hsub : ∀ o ∈ objects, o ∈ s.objects)
    (on : Bool) : Books quantize { s with objects := objects, capturing := on } where
  stamps_lt o ho := h.stamps_lt o (hsub o ho)
  __ := h
  filled_cells w form stamp hw o ho := h.filled_cells w form stamp hw o (hsub o ho)
  stamps_distinct o ho o' ho' := h.stamps_distinct o (hsub o ho) o' (hsub o' ho')

/-- No buffer was filled at the time of a write, so what was written is in none. -/
theorem Books.store (name : Nat) {f : Nat → Obj Content} (hstamp : ∀ n, (f n).stamp = n) :
    Books quantize (store s name f) := by
  have hold (o : Nat × Obj Content) (ho : o ∈ (Q8Activation.store s name f).objects) :
      o = (name, f s.clock) ∨ o ∈ s.objects := by
    obtain rfl | ho := mem_cons.mp ho
    · exact .inl rfl
    · exact .inr (mem_filter.mp ho).1
  exact {
    stamps_lt := fun o ho => by
      obtain rfl | ho := hold o ho
      · exact Nat.lt_succ_of_le (Nat.le_of_eq (hstamp s.clock))
      · exact Nat.lt_succ_of_lt (h.stamps_lt o ho)
    filled_lt := fun w form stamp hw => Nat.lt_succ_of_lt (h.filled_lt w form stamp hw)
    filled_cells := fun w form stamp hw o ho heq => by
      obtain rfl | ho := hold o ho
      · have hlt := h.filled_lt w form stamp hw
        rw [← heq] at hlt
        exact absurd (hstamp s.clock) (Nat.ne_of_lt hlt)
      · exact h.filled_cells w form stamp hw o ho heq
    stamps_distinct := fun o ho o' ho' heq => by
      obtain rfl | ho := hold o ho
      · obtain rfl | ho' := hold o' ho'
        · rfl
        · exact absurd (heq.symm.trans (hstamp s.clock)) (Nat.ne_of_lt (h.stamps_lt o' ho'))
      · obtain rfl | ho' := hold o' ho'
        · exact absurd (heq.trans (hstamp s.clock)) (Nat.ne_of_lt (h.stamps_lt o ho))
        · exact h.stamps_distinct o ho o' ho' heq
    filled_known := h.filled_known
    cached_workspace := h.cached_workspace }

theorem Books.workspace {w : Workspace} (hget : activationWorkspace s w = some s') :
    Books quantize s' ∧ w ∈ s'.workspaces ∧ s'.objects = s.objects ∧ s'.clock = s.clock := by
  unfold activationWorkspace at hget
  split at hget
  · rename_i hmem
    cases hget
    exact ⟨h, hmem, rfl, rfl⟩
  · rename_i hnew
    split at hget
    · cases hget
    · cases hget
      refine ⟨?_, mem_cons_self, rfl, rfl⟩
      exact {
        __ := h
        filled_cells := fun w' form stamp hw o ho heq => by
          have hne : w' ≠ w := by
            rintro rfl
            exact hnew (h.filled_known w' (by rw [hw]; nofun))
          exact (Function.update_of_ne hne _ _).trans (h.filled_cells w' form stamp hw o ho heq)
        filled_known := fun w' hw => mem_cons_of_mem _ (h.filled_known w' hw)
        cached_workspace := h.cached_workspace }

theorem Books.quantizeQ81 (hobj : (name, obj) ∈ s.objects) {w : Workspace}
    (hfill : quantizeQ81 quantize s obj form = some (s', w)) :
    Books quantize s' ∧ w = form.workspace ∧ s'.cells w = some (quantize form obj.content) := by
  obtain ⟨s₁, hget, heq⟩ := Option.map_eq_some_iff.mp hfill
  obtain ⟨h₁, hknown, hobjects, hclock⟩ := h.workspace hget
  cases heq
  refine ⟨?_, rfl, Function.update_self ..⟩
  have hin : (name, obj) ∈ s₁.objects := hobjects ▸ hobj
  exact {
    stamps_lt := h₁.stamps_lt
    filled_lt := fun w form' stamp hw => by
      dsimp only at hw ⊢
      by_cases heq : w = form.workspace
      · rw [heq, Function.update_self] at hw
        cases hw
        exact h₁.stamps_lt _ hin
      · rw [Function.update_of_ne heq] at hw
        exact h₁.filled_lt w form' stamp hw
    filled_cells := fun w form' stamp hw o ho hstamp => by
      dsimp only at hw ho ⊢
      by_cases heq : w = form.workspace
      · rw [heq, Function.update_self] at hw ⊢
        cases hw
        rw [h₁.stamps_distinct o ho _ hin hstamp]
      · rw [Function.update_of_ne heq] at hw ⊢
        exact h₁.filled_cells w form' stamp hw o ho hstamp
    stamps_distinct := h₁.stamps_distinct
    filled_known := fun w hw => by
      dsimp only at hw
      by_cases heq : w = form.workspace
      · rw [heq]
        exact hknown
      · rw [Function.update_of_ne heq] at hw
        exact h₁.filled_known w hw
    cached_workspace := h₁.cached_workspace }

theorem Books.cachedQ8Activation (hobj : (name, obj) ∈ s.objects) {w : Workspace}
    (hproject : cachedQ8Activation quantize s obj form = some (s', w)) : Books quantize s' ∧ w = form.workspace := by
  unfold Q8Activation.cachedQ8Activation at hproject
  split at hproject
  · rename_i w' hhit
    cases hproject
    exact ⟨h, h.cached_workspace _ (mem_of_lookup hhit)⟩
  · obtain ⟨⟨s₁, w₁⟩, hfill, heq⟩ := Option.map_eq_some_iff.mp hproject
    obtain ⟨h₁, rfl, -⟩ := h.quantizeQ81 hobj hfill
    cases heq
    refine ⟨{ h₁ with cached_workspace := fun e he => ?_ }, rfl⟩
    obtain he | he := mem_append.mp he
    · exact h₁.cached_workspace e he
    · rw [mem_singleton.mp he]
      rfl

theorem Books.next {op : Op Content} (hnext : next quantize s op = some s') : Books quantize s' := by
  cases op with
  | create name id content =>
    rw [Q8Activation.next] at hnext
    split at hnext
    · cases hnext
      exact h.store name fun _ => rfl
    · cases hnext
  | free name =>
    cases hnext
    exact h.subset (fun o ho => (mem_filter.mp ho).1) s.capturing
  | write name content =>
    obtain ⟨obj, -, rfl⟩ := Option.map_eq_some_iff.mp hnext
    exact h.store name fun _ => rfl
  | kernelWrite name content =>
    obtain ⟨obj, -, rfl⟩ := Option.map_eq_some_iff.mp hnext
    exact h.store name fun _ => rfl
  | project name form =>
    obtain ⟨obj, hobj, hproject⟩ := Option.bind_eq_some_iff.mp hnext
    obtain ⟨⟨s₁, w⟩, hcached, rfl⟩ := Option.map_eq_some_iff.mp hproject
    exact (h.cachedQ8Activation (mem_of_lookup hobj) hcached).1
  | capture on =>
    cases hnext
    exact h.subset (fun o ho => ho) on

end

theorem lookup_filter_ne {other : Nat} (hne : other ≠ name) (l : List (Nat × Obj Content)) :
    (l.filter fun o => o.1 != other).lookup name = l.lookup name := by
  induction l with
  | nil => rfl
  | cons o l ih =>
    obtain ⟨k, obj⟩ := o
    by_cases hk : k = other
    · rw [filter_cons_of_neg (by simp [hk]), ih, lookup_cons, hk, beq_false_of_ne hne.symm]
    · rw [filter_cons_of_pos (by simp [hk]), lookup_cons, lookup_cons, ih]

/-- The source is alive, alone with its id, and its buffer was last filled from it if the cache knows it. -/
structure Held (s : State Content Quantised) (name : Nat) (form : Form) (obj : Obj Content) : Prop where
  alive : s.objects.lookup name = some obj
  alone : ∀ o ∈ s.objects, o.2.id = obj.id → o.1 = name
  known : ∀ e ∈ s.cache, e.1 = obj.key form → s.filled form.workspace = some (form, obj.stamp)
  older : ∀ e ∈ s.cache, e.1.id = obj.id → e.1.version ≤ obj.version

theorem held_of_new (hobj : s.objects.lookup name = some obj) (halone : ∀ o ∈ s.objects, o.2.id = obj.id → o.1 = name)
    (hnew : ∀ e ∈ s.cache, e.1.id ≠ obj.id) : Held s name form obj :=
  ⟨hobj, halone, fun e he heq => absurd (congrArg Key.id heq) (hnew e he), fun e he heq => absurd heq (hnew e he)⟩

theorem Held.undisturbed (h : Held s name form obj) : Undisturbed s (.project name form) := by
  intro obj' hobj' hknown
  obtain rfl := Option.some.inj (h.alive.symm.trans hobj')
  obtain ⟨w, hw⟩ := Option.ne_none_iff_exists'.mp hknown
  exact h.known _ (mem_of_lookup hw) rfl

/-- The source lives on and is written with its version only, and no other source or form fills its buffer. -/
def Spares (name : Nat) (form : Form) : Op Content → Prop
  | .create other _ _ | .free other | .kernelWrite other _ => other ≠ name
  | .project other form' => form'.workspace = form.workspace → other = name ∧ form' = form
  | .write .. | .capture _ => True

theorem Held.same {other : Nat} {obj' : Obj Content} (h : Held s name form obj)
    (hobj' : s.objects.lookup other = some obj') (hid : obj'.id = obj.id) : other = name ∧ obj' = obj := by
  obtain rfl : other = name := h.alone _ (mem_of_lookup hobj') hid
  exact ⟨rfl, Option.some.inj (hobj'.symm.trans h.alive)⟩

theorem Held.cachedQ8Activation {other : Nat} {obj' : Obj Content} {form' : Form} {w : Workspace}
    (h : Held s name form obj) (hobj' : s.objects.lookup other = some obj')
    (hop : form'.workspace = form.workspace → other = name ∧ form' = form)
    (hcached : cachedQ8Activation quantize s obj' form' = some (s', w)) : Held s' name form obj := by
  have hknown (e) (he : e ∈ s.cache ++ [(obj'.key form', form'.workspace)]) (heq : e.1 = obj.key form) :
      Function.update s.filled form'.workspace (some (form', obj'.stamp)) form.workspace =
        some (form, obj.stamp) := by
    by_cases hw : form'.workspace = form.workspace
    · obtain ⟨rfl, rfl⟩ := hop hw
      obtain rfl := Option.some.inj (hobj'.symm.trans h.alive)
      exact Function.update_self ..
    · rw [Function.update_of_ne (Ne.symm hw)]
      obtain he | he := mem_append.mp he
      · exact h.known e he heq
      · rw [mem_singleton.mp he] at heq
        exact absurd (congrArg (fun k => k.form.workspace) heq) hw
  have holder (e) (he : e ∈ s.cache ++ [(obj'.key form', form'.workspace)]) (heq : e.1.id = obj.id) :
      e.1.version ≤ obj.version := by
    obtain he | he := mem_append.mp he
    · exact h.older e he heq
    · rw [mem_singleton.mp he] at heq ⊢
      rw [← (h.same hobj' heq).2]
      exact Nat.le_refl _
  unfold Q8Activation.cachedQ8Activation quantizeQ81 activationWorkspace at hcached
  split at hcached
  · cases hcached
    exact h
  · split_ifs at hcached <;> cases hcached <;> exact ⟨h.alive, h.alone, hknown, holder⟩

theorem Held.next {op : Op Content} (h : Held s name form obj) (hop : Spares name form op)
    (hnext : next quantize s op = some s') : ∃ obj', Held s' name form obj' := by
  have halone {other : Nat} {f : Nat → Obj Content} (hid : (f s.clock).id = obj.id → other = name) :
      ∀ o ∈ (store s other f).objects, o.2.id = obj.id → o.1 = name := by
    intro o ho heq
    obtain rfl | ho := mem_cons.mp ho
    · exact hid heq
    · exact h.alone o (mem_filter.mp ho).1 heq
  have hstore {other : Nat} {f : Nat → Obj Content} (hne : other ≠ name) (hid : (f s.clock).id ≠ obj.id) :
      Held (store s other f) name form obj := by
    refine ⟨?_, halone fun heq => absurd heq hid, h.known, h.older⟩
    rw [store, lookup_cons, beq_false_of_ne hne.symm, ← h.alive]
    exact lookup_filter_ne hne _
  cases op with
  | create other id content =>
    obtain ⟨hall, rfl⟩ := eq_of_guard hnext
    have hid := all_eq_true.mp hall _ (mem_of_lookup h.alive)
    simp only [Bool.and_eq_true, bne_iff_ne] at hid
    exact ⟨obj, hstore hop hid.2.symm⟩
  | free other =>
    cases hnext
    exact ⟨obj, (lookup_filter_ne hop _).trans h.alive, fun o ho => h.alone o (mem_filter.mp ho).1, h.known, h.older⟩
  | write other content =>
    obtain ⟨obj', hobj', rfl⟩ := Option.map_eq_some_iff.mp hnext
    by_cases hne : other = name
    · subst hne
      obtain rfl := Option.some.inj (hobj'.symm.trans h.alive)
      refine ⟨⟨obj'.id, obj'.version + 1, content, s.clock⟩, lookup_cons_self, halone fun _ => rfl,
        fun e he heq => ?_, fun e he heq => Nat.le_succ_of_le (h.older e he heq)⟩
      have hle := h.older e he (by rw [heq]; rfl)
      rw [heq] at hle
      exact absurd hle (Nat.not_succ_le_self _)
    · exact ⟨obj, hstore hne fun hid => hne (h.same hobj' hid).1⟩
  | kernelWrite other content =>
    obtain ⟨obj', hobj', rfl⟩ := Option.map_eq_some_iff.mp hnext
    exact ⟨obj, hstore hop fun hid => hop (h.same hobj' hid).1⟩
  | capture on =>
    cases hnext
    exact ⟨obj, h.alive, h.alone, h.known, h.older⟩
  | project other form' =>
    obtain ⟨obj', hobj', hproject⟩ := Option.bind_eq_some_iff.mp hnext
    obtain ⟨⟨s₁, w⟩, hcached, rfl⟩ := Option.map_eq_some_iff.mp hproject
    exact ⟨obj, h.cachedQ8Activation hobj' hop hcached⟩

/-- Along operations that spare a held source, its projections are undisturbed. -/
theorem undisturbed_of_held {ops : List (Op Content)} (h : Held s name form obj)
    (hops : Along (next quantize) (fun _ => Spares name form) s ops) :
    Along (next quantize) (fun s op => op = .project name form → Undisturbed s op) s ops := by
  refine @along_of_steps _ _ _ _ (fun s => ∃ obj, Held s name form obj) _ _ (fun _ _ _ hs hop hnext => ?_) _
    (fun _ _ hs _ heq => ?_) ⟨obj, h⟩ hops
  · obtain ⟨_, hs⟩ := hs
    exact hs.next hop hnext
  · obtain ⟨_, hs⟩ := hs
    exact heq ▸ hs.undisturbed

end Steps

section Runs

/-- An undisturbed projection is fresh. -/
theorem Books.fresh (h : Books quantize s) {op : Op Content} (hop : Undisturbed s op) : Fresh quantize s op := by
  cases op with
  | project name form =>
    intro obj hobj s' w hproject
    refine ⟨(h.cachedQ8Activation (mem_of_lookup hobj) hproject).2, ?_⟩
    unfold Q8Activation.cachedQ8Activation at hproject
    split at hproject
    · rename_i w' hhit
      cases hproject
      have hfilled := hop obj hobj (by rw [hhit]; nofun)
      obtain rfl : w = form.workspace := h.cached_workspace _ (mem_of_lookup hhit)
      exact h.filled_cells _ _ _ hfilled _ (mem_of_lookup hobj) rfl
    · obtain ⟨⟨s₁, w₁⟩, hfill, heq⟩ := Option.map_eq_some_iff.mp hproject
      obtain ⟨-, -, hcell⟩ := h.quantizeQ81 (mem_of_lookup hobj) hfill
      cases heq
      exact hcell
  | _ => exact trivial

/-- In a scope whose projections are undisturbed, every projection is fresh. -/
theorem fresh_of_run (quantize : Form → Content → Quantised) (workspaces : List Workspace)
    (cells : Workspace → Option Quantised) (ops : List (Op Content))
    (h : Along (next quantize) Undisturbed (enter workspaces cells) ops) :
    Along (next quantize) (Fresh quantize) (enter workspaces cells) ops :=
  along_of_steps (fun _ _ _ hs _ hnext => Books.next hs hnext) (fun _ _ hs hop => Books.fresh hs hop)
    (books_enter workspaces cells) h

instance (s : State Content Quantised) : (op : Op Content) → Decidable (Undisturbed s op)
  | .project name form =>
    match h : s.objects.lookup name with
    | none => isTrue fun obj hobj => by simp [h] at hobj
    | some obj =>
      decidable_of_iff (s.cache.lookup (obj.key form) ≠ none → s.filled form.workspace = some (form, obj.stamp))
        (by simp [Undisturbed, h])
  | .create .. | .free _ | .write .. | .kernelWrite .. | .capture _ => isTrue trivial

/-- A quantisation that forgets nothing. -/
def remember (form : Form) (content : Nat) : Form × Nat := (form, content)

def row : Form := ⟨0, 1, 512, 2⟩

/-- One source for two linears, and again after an in-place update. -/
def sharedSource : List (Op Nat) :=
  [.create 0 7 10, .project 0 row, .project 0 row, .write 0 11, .project 0 row, .project 0 row]

theorem fresh_of_run_shared : Along (next remember) (Fresh remember) (enter [] fun _ => none) sharedSource :=
  fresh_of_run remember [] (fun _ => none) sharedSource (by decide)

/-- Two sources of one shape, the first projected again behind the second. -/
def twoSources : List (Op Nat) :=
  [.create 0 7 10, .create 1 8 11, .project 0 row, .project 1 row, .project 0 row]

/-- A new tensor takes over the id of a source that was freed. -/
def recycledId : List (Op Nat) :=
  [.create 0 7 10, .project 0 row, .free 0, .create 1 7 11, .project 1 row]

def uncountedWrite : List (Op Nat) := [.create 0 7 10, .project 0 row, .kernelWrite 0 11, .project 0 row]

theorem stale :
    (¬ Along (next remember) (Fresh remember) (enter [] fun _ => none) twoSources) ∧
      (¬ Along (next remember) (Fresh remember) (enter [] fun _ => none) recycledId) ∧
      ¬ Along (next remember) (Fresh remember) (enter [] fun _ => none) uncountedWrite := by
  refine ⟨fun h => ?_, fun h => ?_, fun h => ?_⟩
  · have hlast := ((((h.2 _ rfl).2 _ rfl).2 _ rfl).2 _ rfl).1 _ rfl _ _ rfl
    exact absurd (Option.some.inj hlast.2) (by decide)
  · have hlast := ((((h.2 _ rfl).2 _ rfl).2 _ rfl).2 _ rfl).1 _ rfl _ _ rfl
    exact absurd (Option.some.inj hlast.2) (by decide)
  · have hlast := (((h.2 _ rfl).2 _ rfl).2 _ rfl).1 _ rfl _ _ rfl
    exact absurd (Option.some.inj hlast.2) (by decide)

end Runs

end Q8Activation
