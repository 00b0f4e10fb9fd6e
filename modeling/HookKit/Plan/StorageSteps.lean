import HookKit.Plan.Storage

/-!
# What a copy owns

Copying a target makes new blocks only, and what is read from them is what the caller's target says,
whatever becomes of the caller's memory; the copy of `Plan.Build` does the same to the value.

* `copyOwned_spec` — image selectors, to any depth and with any explicit sets.
* `copyRawTarget_spec` — targets.
-/

set_option autoImplicit false

namespace HookKit

open Heap

variable {ε : Type}

/-! ## Parts -/

/-- What is known of a part when it goes through; in any case only the hook's blocks have
changed. -/
def Part.Spec {α : Type} (part : Part ε α) (s : Store ε) (Q : α → List BlockAddr → Store ε → Prop) :
    Prop :=
  ∀ r owned s', part = some ((r, owned), s') →
    Grows s.heap s'.heap owned ∧ ∀ a, r = .ok a → Q a owned s'

section

variable {α γ : Type} {s : Store ε} {P : α → List BlockAddr → Store ε → Prop}
  {Q : γ → List BlockAddr → Store ε → Prop}

theorem Part.Spec.done {a : α} (h : P a [] s) : (Part.done a s).Spec s P := by
  rintro r owned s' ⟨⟩
  refine ⟨.refl _, ?_⟩
  rintro a ⟨⟩
  exact h

theorem Part.Spec.andThen {part : Part ε α} {next : α → Store ε → Part ε γ} (hpart : part.Spec s P)
    (hnext : ∀ a owned s₁, Grows s.heap s₁.heap owned → P a owned s₁ →
      (next a s₁).Spec s₁ fun c more s₂ ↦ Grows s₁.heap s₂.heap more → Q c (owned ++ more) s₂) :
    (part.andThen next).Spec s Q := by
  intro r owned s' heq
  rcases part with _ | ⟨⟨_ | a, owned₁⟩, s₁⟩
  · cases heq
  · cases heq
    exact ⟨(hpart _ _ _ rfl).1, nofun⟩
  · obtain ⟨hgrows, ha⟩ := hpart _ _ _ rfl
    have hnext := hnext a owned₁ s₁ hgrows (ha a rfl)
    rw [Part.andThen] at heq
    rcases hsecond : next a s₁ with _ | ⟨⟨r₂, owned₂⟩, s₂⟩
    · rw [hsecond] at heq
      cases heq
    · rw [hsecond] at heq
      cases heq
      obtain ⟨hgrows₂, hc⟩ := hnext _ _ _ hsecond
      exact ⟨hgrows.trans hgrows₂, fun c hr ↦ hc c hr hgrows₂⟩

theorem Part.Spec.mono {part : Part ε γ} {Q' : γ → List BlockAddr → Store ε → Prop}
    (h : part.Spec s Q)
    (himp : ∀ c owned s', Grows s.heap s'.heap owned → Q c owned s' → Q' c owned s') :
    part.Spec s Q' :=
  fun r owned s' heq ↦
    let ⟨hgrows, hQ⟩ := h r owned s' heq
    ⟨hgrows, fun c hr ↦ himp c owned s' hgrows (hQ c hr)⟩

end

theorem Store.alloc_spec {s s' : Store ε} {b : MemoryBlock} {a : BlockAddr}
    (h : s.alloc b = (some a, s')) : a = s.heap.next ∧ Grows s.heap s'.heap [a] ∧
      s'.heap.blocks a = some b ∧ s.env.alloc = (true, s'.env) := by
  rw [Store.alloc] at h
  split at h
  · cases h
  · rename_i env henv
    cases h
    exact ⟨rfl, .alloc _ _, Function.update_self _ _ _, henv⟩

theorem Store.alloc_failed {s s' : Store ε} {b : MemoryBlock} (h : s.alloc b = (none, s')) :
    s'.heap = s.heap := by
  rw [Store.alloc] at h
  split at h
  · cases h
    rfl
  · cases h

theorem Store.part_spec (s : Store ε) (b : MemoryBlock) :
    (s.part b).Spec s fun a owned s' ↦
      a ≠ 0 ∧ owned = [a] ∧ s'.heap.blocks a = some b ∧ s.env.alloc = (true, s'.env) := by
  intro r owned s' heq
  rw [Store.part] at heq
  split at heq
  · rename_i s₁ hfailed
    cases heq
    have hheap := Store.alloc_failed hfailed
    refine ⟨?_, nofun⟩
    rw [hheap]
    exact .refl _
  · rename_i a s₁ hmade
    cases heq
    obtain ⟨ha, hgrows, hblock, henv⟩ := Store.alloc_spec hmade
    refine ⟨hgrows, ?_⟩
    rintro _ ⟨⟩
    refine ⟨?_, rfl, hblock, henv⟩
    rw [ha]
    exact Nat.ne_of_gt s.heap.positive

/-! ## Strings and bytes -/

theorem readText_keeps {h : BlockHeap} {a : BlockAddr} {text : String} (ha : a ≠ 0)
    (hblock : h.blocks a = some (.text text)) : Keeps (readText · a) (some text) h [a] := by
  intro g hg
  show readText g a = some (some text)
  rw [readText, if_neg ha, hg a (List.mem_singleton.mpr rfl), hblock]

theorem readText_null (h : BlockHeap) : Keeps (readText · 0) none h [0] := fun _ _ ↦ rfl

theorem strdup_spec (memory : BlockHeap) (a : BlockAddr) (s : Store ε) :
    (strdup memory a s).Spec s fun b owned s' ↦ owned =
    [b] ∧ ∃ text, readText memory a = some text ∧
      Keeps (readText · b) text s'.heap [b] ∧ copyString text s.env = (true, s'.env) := by
  rw [strdup]
  rcases hread : readText memory a with _ | _ | text
  · exact nofun
  · rintro r owned s' ⟨⟩
    refine ⟨.nothing _, ?_⟩
    rintro _ ⟨⟩
    exact ⟨rfl, none, rfl, readText_null _, rfl⟩
  · refine (Store.part_spec s (.text text)).mono ?_
    rintro b _ s' - ⟨hb, rfl, hblock, henv⟩
    exact ⟨rfl, some text, rfl, readText_keeps hb hblock, henv⟩

theorem RawBytes.read_size {view : RawBytes} {memory : BlockHeap} {bytes : List Byte} {size : Nat}
    (h : view.read memory = some ⟨some bytes, size⟩) : bytes.length = size ∧ size ≠ 0 := by
  rw [RawBytes.read] at h
  split at h
  · cases h
  rename_i hview
  rw [not_or] at hview
  split at h
  · split at h
    · cases h
      exact ⟨List.length_take_of_le ‹_›, hview.2⟩
    · cases h
  · cases h

theorem RawBytes.read_null {view : RawBytes} {memory : BlockHeap} {size : Nat}
    (h : view.read memory = some ⟨none, size⟩) : size = 0 := by
  rw [RawBytes.read] at h
  split at h
  · cases h
    rfl
  · split at h
    · split at h <;> cases h
    · cases h

theorem bytesDup_spec (memory : BlockHeap) (view : RawBytes) (s : Store ε) :
    (bytesDup memory view s).Spec s fun copy owned s' ↦ ∃ bytes, view.read memory = some bytes ∧
      Keeps copy.read bytes s'.heap owned ∧ copyBytes bytes s.env = (some bytes, s'.env) := by
  rw [bytesDup]
  rcases hread : view.read memory with _ | ⟨_ | bytes, size⟩
  · exact nofun
  · cases RawBytes.read_null hread
    exact .done ⟨⟨none, 0⟩, rfl, fun _ _ ↦ rfl, rfl⟩
  · obtain ⟨hlength, hsize⟩ := RawBytes.read_size hread
    refine (Store.part_spec s (.bytes bytes)).andThen ?_
    rintro a _ s₁ - ⟨ha, rfl, hblock, henv⟩
    refine .done fun _ ↦ ⟨⟨some bytes, size⟩, rfl, fun g hg ↦ ?_, ?_⟩
    · rw [RawBytes.read, if_neg (not_or.mpr ⟨ha, hsize⟩), hg a (List.mem_singleton.mpr rfl), hblock]
      dsimp only
      rw [if_pos (Nat.le_of_eq hlength.symm), List.take_of_length_le (Nat.le_of_eq hlength)]
    · rw [copyBytes, if_neg (by simp [hsize]), henv]

/-! ## Image selectors -/

/-- What the selector at an address says. -/
def selectorAt (levels : Nat) (memory : BlockHeap) (a : BlockAddr) : Option ImageSelector := do
  readSelector levels memory (← readSelectorAt memory a)

/-- A copy of a selector. -/
structure OwnedSelector.Copied (memory : BlockHeap) (levels : Nat) (raw : RawSelector)
    (s s' : Store ε) (o : OwnedSelector) (v : ImageSelector) : Prop where
  grows : Grows s.heap s'.heap o.blocks
  said : readSelector levels memory raw = some v
  keeps : Keeps (readSelector levels · o.value) v s'.heap o.blocks
  stands : Keeps (readSelectorAt · o.self) o.value s'.heap o.blocks
  env : copySelectorOwned levels v s.env = (.ok v, s'.env)

/-- What is known of the copies of selectors. -/
def CopiesOwned (ε : Type) (memory : BlockHeap) (levels : Nat) : Prop :=
  ∀ raw (s s' : Store ε) r, copyOwned memory levels raw s = some (r, s') →
    (∀ status, r = .error status → Grows s.heap s'.heap []) ∧
    ∀ o, r = .ok o → ∃ v, o.Copied memory levels raw s s' v

theorem OwnedSelector.Copied.at_self {memory : BlockHeap} {levels : Nat} {raw : RawSelector}
    {s s' : Store ε} {o : OwnedSelector} {v : ImageSelector}
    (h : o.Copied memory levels raw s s' v) :
    Keeps (selectorAt levels · o.self) v s'.heap o.blocks := by
  intro g hg
  have hstands : readSelectorAt g o.self = some o.value := h.stands g hg
  show (readSelectorAt g o.self).bind _ = some v
  rw [hstands]
  exact h.keeps g hg

section

variable {memory : BlockHeap} {levels : Nat} {s s' : Store ε}

/-- The children of an explicit set. -/
theorem copyOwnedChildren_spec (hcopy : CopiesOwned ε memory levels) {entries : List BlockAddr}
    {status : Option Status} {made : List OwnedSelector}
    (h : copyOwnedChildren memory (copyOwned memory levels) entries s = some (status, made, s')) :
    Grows s.heap s'.heap (made.flatMap OwnedSelector.blocks) ∧
    (status = none → made.length = entries.length ∧
      ∃ set, entries.mapM (selectorAt levels memory) = some set ∧
        Keeps (fun g ↦ (made.map OwnedSelector.self).mapM (selectorAt levels g)) set s'.heap
          (made.flatMap OwnedSelector.blocks) ∧
        copyChildren (copySelectorOwned levels) (set.map some) s.env =
          (.ok (set.map some), s'.env)) := by
  induction entries generalizing s status made s' with
  | nil =>
    cases h
    exact ⟨.refl _, fun _ ↦ ⟨rfl, [], rfl, fun _ _ ↦ rfl, rfl⟩⟩
  | cons a rest ih =>
    rw [copyOwnedChildren] at h
    split at h
    · cases h
      exact ⟨.refl _, nofun⟩
    obtain ⟨raw, hraw, h⟩ := Option.bind_eq_some_iff.mp h
    obtain ⟨⟨r, s₁⟩, hchild, h⟩ := Option.bind_eq_some_iff.mp h
    obtain ⟨hfailed, hok⟩ := hcopy raw s s₁ r hchild
    cases r with
    | error status' =>
      cases h
      exact ⟨hfailed status' rfl, nofun⟩
    | ok child =>
      obtain ⟨v, hcopied⟩ := hok child rfl
      obtain ⟨⟨status', children, s₂⟩, hrest, h⟩ := Option.bind_eq_some_iff.mp h
      cases h
      obtain ⟨hgrows, hdone⟩ := ih hrest
      refine ⟨hcopied.grows.trans hgrows, fun hnone ↦ ?_⟩
      obtain ⟨hlength, set, hset, hkeeps, henv⟩ := hdone hnone
      refine ⟨congrArg Nat.succ hlength, v :: set, ?_, ?_, ?_⟩
      · have hv : selectorAt levels memory a = some v := by
          rw [selectorAt, hraw]
          exact hcopied.said
        rw [List.mapM_cons, hv, hset]
        rfl
      · intro g hg
        have hv : selectorAt levels g child.self = some v :=
          hcopied.at_self.grows hcopied.grows hgrows g fun a ha ↦
            hg a (List.mem_append_left _ ha)
        have hrest : List.mapM (selectorAt levels g) (children.map OwnedSelector.self) = some set :=
          hkeeps g fun a ha ↦ hg a (List.mem_append_right _ ha)
        show List.mapM (selectorAt levels g) (child.self :: children.map OwnedSelector.self) = _
        rw [List.mapM_cons, hv, hrest]
        rfl
      · rw [List.map_cons, copyChildren, hcopied.env]
        dsimp only
        rw [henv]

/-- The owned selector and its path have been made. -/
structure Begun (memory : BlockHeap) (raw : RawSelector) (s s₁ : Store ε) (home path : BlockAddr)
    (name : Option String) : Prop where
  grows : Grows s.heap s₁.heap [path, home]
  apart : path ≠ home
  stands : (s₁.heap.blocks home).isSome
  said : readText memory raw.path = some name
  keeps : Keeps (readText · path) name s₁.heap [path]
  env : ∃ env, s.env.alloc = (true, env) ∧ copyString name env = (true, s₁.env)

theorem begun {raw : RawSelector} {home path : BlockAddr} {owned : List BlockAddr} {s₀ s₁ : Store ε}
    (hhome : s.alloc (.selector .zero) = (some home, s₀))
    (hpath : strdup memory raw.path s₀ = some ((.ok path, owned), s₁)) :
    ∃ name, Begun memory raw s s₁ home path name := by
  obtain ⟨heq, hgrows, hblock, henv⟩ := Store.alloc_spec hhome
  obtain ⟨hgrows₁, hdone⟩ := strdup_spec memory raw.path s₀ _ _ _ hpath
  obtain ⟨rfl, name, hname, hkeeps, hcopy⟩ := hdone path rfl
  have hhome_old : home < s₀.heap.next := hgrows.lt (List.mem_singleton.mpr rfl)
  refine ⟨name, (hgrows.trans hgrows₁).congr fun a ↦ ?_, ?_, ?_, hname, hkeeps, _, henv, hcopy⟩
  · simp [or_comm]
  · have hpos := s.heap.positive
    rcases hgrows₁.new path (List.mem_singleton.mpr rfl) with hnull | hnew
    · rw [hnull, heq]
      exact Nat.ne_of_lt hpos
    · exact Nat.ne_of_gt (Nat.lt_of_lt_of_le hhome_old hnew.1)
  · rw [hgrows₁.old hhome_old, hblock]
    rfl

/-- A selector that stands at an address from now on. -/
theorem written_stands {h : BlockHeap} {home : BlockAddr} (hhome : (h.blocks home).isSome)
    (value : RawSelector) :
    Keeps (readSelectorAt · home) value (h.write home (.selector value)) [home] := by
  intro g hg
  show readSelectorAt g home = some value
  rw [readSelectorAt, hg home (List.mem_singleton.mpr rfl), write_self hhome]

/-- A selector that is no explicit set, or an empty one. -/
theorem Begun.plain {raw : RawSelector} {home path : BlockAddr}
    {name : Option String} {s₁ : Store ε}
    (h : Begun memory raw s s₁ home path name)
    (hplain : ¬ (raw.kind = .explicitSet ∧ raw.explicitSetCount ≠ 0)) :
    (OwnedSelector.mk ⟨raw.kind, path, raw.uuid, raw.header, 0, 0⟩ home [path, home]).Copied memory
      (levels + 1) raw s (s₁.write home (.selector ⟨raw.kind, path, raw.uuid, raw.header, 0, 0⟩))
      (.mk raw.kind name raw.uuid raw.header (some [])) := by
  refine ⟨h.grows.write (by simp) _, ?_, ?_, ?_, ?_⟩
  · rw [readSelector, h.said]
    dsimp only [Option.bind_eq_bind, Option.bind_some]
    rw [if_neg hplain]
  · intro g hg
    have hname : readText g path = some name := by
      refine (h.keeps.mono fun a ha ↦ ?_ : Keeps (readText · path) name _ [path]) g fun a ha ↦
        hg a (List.mem_of_mem_take (i := 1) ha)
      rw [List.mem_singleton.mp ha]
      exact write_of_ne _ _ h.apart
    show readSelector (levels + 1) g ⟨raw.kind, path, raw.uuid, raw.header, 0, 0⟩ = _
    rw [readSelector, hname]
    dsimp only [Option.bind_eq_bind, Option.bind_some]
    rw [if_neg fun hset ↦ hset.2 rfl]
  · exact (written_stands h.stands _).weaken fun a ha ↦ by
      rw [List.mem_singleton.mp ha]
      simp
  · obtain ⟨env, halloc, hcopy⟩ := h.env
    rw [copySelectorOwned, halloc]
    dsimp only [ImageSelector.path]
    rw [hcopy]
    exact ite_self _

theorem readPointers_length {memory : BlockHeap} {a : BlockAddr} {count : Nat}
    {entries : List BlockAddr}
    (h : readPointers memory a count = some entries) : entries.length = count := by
  rw [readPointers] at h
  split at h
  · split at h
    · cases h
      exact List.length_take_of_le ‹_›
    · cases h
  · cases h

theorem mapM_length {α β : Type} {f : α → Option β} {l : List α} {l' : List β}
    (h : l.mapM f = some l') : l'.length = l.length := by
  induction l generalizing l' with
  | nil =>
    cases h
    rfl
  | cons a rest ih =>
    rw [List.mapM_cons] at h
    obtain ⟨b, -, h⟩ := Option.bind_eq_some_iff.mp h
    obtain ⟨bs, hbs, h⟩ := Option.bind_eq_some_iff.mp h
    cases h
    exact congrArg Nat.succ (ih hbs)

/-- The two arrays of an explicit set. -/
structure Arrays (s₁ s₃ : Store ε) (count : Nat) (children views : BlockAddr) : Prop where
  grows : Grows s₁.heap s₃.heap [children, views]
  apart : children ≠ views
  old : s₁.heap.next ≤ children ∧ s₁.heap.next ≤ views
  stands : (s₃.heap.blocks children).isSome ∧ (s₃.heap.blocks views).isSome
  env : s₁.env.allocAll 2 = (true, s₃.env)

theorem arrays {s₁ s₂ s₃ : Store ε} {b : MemoryBlock} {count : Nat} {children views : BlockAddr}
    (hchildren : s₁.alloc b = (some children, s₂)) (hviews : s₂.alloc b = (some views, s₃)) :
    Arrays s₁ s₃ count children views := by
  obtain ⟨heq₁, hgrows₁, hblock₁, henv₁⟩ := Store.alloc_spec hchildren
  obtain ⟨heq₂, hgrows₂, hblock₂, henv₂⟩ := Store.alloc_spec hviews
  have hold : children < s₂.heap.next := hgrows₁.lt (List.mem_singleton.mpr rfl)
  refine ⟨hgrows₁.trans hgrows₂, ?_, ⟨Nat.le_of_eq heq₁.symm, ?_⟩, ⟨?_, ?_⟩, ?_⟩
  · rw [heq₂]
    exact Nat.ne_of_lt hold
  · rw [heq₂]
    exact hgrows₁.next
  · rw [hgrows₂.old hold, hblock₁]
    rfl
  · rw [hblock₂]
    rfl
  · rw [Env.allocAll, henv₁]
    dsimp only
    rw [Env.allocAll, henv₂]
    rfl

/-- What a copied explicit set has become. -/
theorem Begun.set (hcopy : CopiesOwned ε memory levels) {raw : RawSelector} {home path : BlockAddr}
    {name : Option String} {s₁ s₃ s₄ : Store ε} (h : Begun memory raw s s₁ home path name)
    (hkind : raw.kind = .explicitSet) (hcount : raw.explicitSetCount ≠ 0)
    {children views : BlockAddr}
    (harrays : Arrays s₁ s₃ raw.explicitSetCount children views) {entries : List BlockAddr}
    (hentries : readPointers memory raw.explicitSet raw.explicitSetCount = some entries)
    {made : List OwnedSelector}
    (hmade : copyOwnedChildren memory (copyOwned memory levels) entries s₃ = some (none, made, s₄))
    (value : RawSelector)
    (hvalue : value = ⟨raw.kind, path, raw.uuid, raw.header, views, raw.explicitSetCount⟩) :
    ∃ v, (OwnedSelector.mk value home
        (made.flatMap OwnedSelector.blocks ++ [children, views, path, home])).Copied
        memory (levels + 1)
      raw s (((s₄.write children (.pointers (made.map OwnedSelector.self))).write views
        (.pointers (made.map OwnedSelector.self))).write home (.selector value)) v := by
  obtain ⟨hgrows, hdone⟩ := copyOwnedChildren_spec hcopy hmade
  obtain ⟨hlength, set, hset, hkeeps, henv⟩ := hdone rfl
  have hlen := readPointers_length hentries
  have hpath := h.grows.lt (a := path) (by simp)
  have hhome := h.grows.lt (a := home) (by simp)
  have hchildren₃ := harrays.grows.lt (a := children) (by simp)
  have hviews₃ := harrays.grows.lt (a := views) (by simp)
  obtain ⟨hchildren₁, hviews₁⟩ := harrays.old
  have hnext := harrays.grows.next
  generalize hpointers : MemoryBlock.pointers (made.map OwnedSelector.self) = pointers
  -- the three writes touch nothing but the two arrays and the selector itself
  have hother : ∀ x : Nat, x ≠ children → x ≠ views → x ≠ home →
      (((s₄.heap.write children pointers).write views pointers).write home
        (.selector value)).blocks x = s₄.heap.blocks x := fun x hc hv hh ↦ by
    rw [write_of_ne _ _ hh, write_of_ne _ _ hv, write_of_ne _ _ hc]
  have hviews : (((s₄.heap.write children pointers).write views pointers).write home
      (.selector value)).blocks views = some pointers := by
    rw [write_of_ne _ _ (by omega), write_self]
    rw [write_of_ne _ _ (Ne.symm harrays.apart), hgrows.old hviews₃]
    exact harrays.stands.2
  have hstands : (((s₄.heap.write children pointers).write views pointers).blocks home).isSome := by
    rw [write_of_ne _ _ (by omega), write_of_ne _ _ (by omega), hgrows.old (by omega),
      harrays.grows.old hhome]
    exact h.stands
  refine ⟨.mk raw.kind name raw.uuid raw.header (some (set.map some)), ?_, ?_, ?_, ?_, ?_⟩
  · refine Grows.write (Grows.write (Grows.write ((h.grows.trans (harrays.grows.trans hgrows)).congr
      fun a ↦ ?_) (by simp) _) (by simp) _) (by simp) _
    simp only [List.mem_append, List.mem_cons, List.not_mem_nil, or_false]
    tauto
  · rw [readSelector, h.said]
    dsimp only [Option.bind_eq_bind, Option.bind_some]
    rw [if_pos ⟨hkind, hcount⟩, hentries]
    dsimp only [Option.bind_some]
    show (entries.mapM (selectorAt levels memory)).bind _ = _
    rw [hset]
    rfl
  · intro g hg
    simp only [Store.write_heap] at hg
    have hname : readText g path = some name := by
      have hsame : ∀ a ∈ [path], s₄.heap.blocks a = s₁.heap.blocks a := fun a ha ↦ by
        rw [List.mem_singleton.mp ha, hgrows.old (by omega), harrays.grows.old hpath]
      refine (h.keeps.mono hsame : Keeps (readText · path) name _ [path]) g fun a ha ↦ ?_
      rw [List.mem_singleton.mp ha, hg path (by simp),
        hother path (by omega) (by omega) h.apart]
    have hset' : (made.map OwnedSelector.self).mapM (selectorAt levels g) = some set := by
      refine hkeeps g fun a ha ↦ ?_
      rw [hg a (List.mem_append_left _ ha)]
      rcases hgrows.new a ha with rfl | hnew
      · rw [Heap.null, Heap.null]
      · exact hother a (by omega) (by omega) (by omega)
    have hpointers' : readPointers g views raw.explicitSetCount =
        some (made.map OwnedSelector.self) := by
      have hmade_length : (made.map OwnedSelector.self).length = raw.explicitSetCount := by
        rw [List.length_map, hlength, hlen]
      rw [readPointers, hg views (by simp), hviews, ← hpointers]
      dsimp only
      rw [if_pos (Nat.le_of_eq hmade_length.symm), List.take_of_length_le
        (Nat.le_of_eq hmade_length)]
    show readSelector (levels + 1) g value = _
    rw [hvalue, readSelector, hname]
    dsimp only [Option.bind_eq_bind, Option.bind_some]
    rw [if_pos ⟨hkind, hcount⟩, hpointers']
    dsimp only [Option.bind_some]
    show ((made.map OwnedSelector.self).mapM (selectorAt levels g)).bind _ = _
    rw [hset']
    rfl
  · exact (written_stands hstands value).weaken fun a ha ↦ by
      rw [List.mem_singleton.mp ha]
      simp
  · obtain ⟨env, halloc, hname⟩ := h.env
    have hset_length : 0 < (set.map some).length := by
      rw [List.length_map, mapM_length hset, hlen]
      exact Nat.pos_of_ne_zero hcount
    obtain ⟨first, rest, hcons⟩ := List.exists_cons_of_length_pos hset_length
    rw [hcons] at henv ⊢
    rw [copySelectorOwned, halloc]
    dsimp only [ImageSelector.path]
    rw [hname]
    dsimp only
    rw [if_pos (c := (ImageSelector.mk raw.kind name raw.uuid raw.header _).kind = .explicitSet)
      hkind]
    dsimp only [ImageSelector.explicitSet]
    rw [harrays.env]
    dsimp only
    rw [henv]
    rfl

theorem strdup_failed {raw : RawSelector} {status : Status}
    {owned : List BlockAddr} {s₀ s₁ : Store ε}
    {home : BlockAddr} (hhome : s.alloc (.selector .zero) = (some home, s₀))
    (hpath : strdup memory raw.path s₀ = some ((.error status, owned), s₁)) :
    Grows s.heap (s₁.freeAll [home]).heap [] := by
  obtain ⟨-, hgrows, -, -⟩ := Store.alloc_spec hhome
  have hnothing : s₁.heap = s₀.heap := by
    rw [strdup] at hpath
    split at hpath
    · cases hpath
    · cases hpath
    · rw [Store.part] at hpath
      split at hpath
      · rename_i hfailed
        cases hpath
        exact Store.alloc_failed hfailed
      · cases hpath
  show Grows s.heap (s₁.heap.freeAll [home]) []
  rw [hnothing]
  exact hgrows.freeAll

/-- **The explicit set** of a selector. -/
theorem copyExplicitSet_spec (hcopy : CopiesOwned ε memory levels) {raw : RawSelector}
    {home path : BlockAddr} {name : Option String} {s₁ s' : Store ε}
    (h : Begun memory raw s s₁ home path name) (hkind : raw.kind = .explicitSet)
    {r : Except Status OwnedSelector}
    (hr : copyExplicitSet memory (copyOwned memory levels) raw
      ⟨raw.kind, path, raw.uuid, raw.header, 0, 0⟩ home path s₁ = some (r, s')) :
    (∀ status, r = .error status → Grows s.heap s'.heap []) ∧
    ∀ o, r = .ok o → ∃ v, o.Copied memory (levels + 1) raw s s' v := by
  rw [copyExplicitSet] at hr
  split at hr
  · cases hr
    exact ⟨fun _ _ ↦ h.grows.freeAll, nofun⟩
  split at hr
  · rename_i hempty
    cases hr
    refine ⟨nofun, ?_⟩
    rintro _ ⟨⟩
    exact ⟨_, h.plain fun hset ↦ hset.2 hempty⟩
  rename_i hcount
  split at hr
  · cases hr
  rename_i children s₂ hchildren
  split at hr
  · rename_i s₃ hfailed
    cases hr
    obtain ⟨-, hgrows, -, -⟩ := Store.alloc_spec hchildren
    refine ⟨fun _ _ ↦ ?_, nofun⟩
    show Grows s.heap (s₃.heap.freeAll [children, path, home]) []
    rw [Store.alloc_failed hfailed]
    exact ((h.grows.trans hgrows).congr fun a ↦ by simp; tauto).freeAll
  rename_i views s₃ hviews
  have harrays := @arrays ε s₁ s₂ s₃ _ raw.explicitSetCount children views hchildren hviews
  obtain ⟨entries, hentries, hr⟩ := Option.bind_eq_some_iff.mp hr
  obtain ⟨⟨status, made, s₄⟩, hmade, hr⟩ := Option.bind_eq_some_iff.mp hr
  cases status with
  | some status =>
    cases hr
    have hgrows := (copyOwnedChildren_spec hcopy hmade).1
    refine ⟨fun _ _ ↦ ?_, nofun⟩
    refine Grows.freeAll ((h.grows.trans (harrays.grows.trans hgrows)).congr fun a ↦ ?_)
    simp only [List.mem_append, List.mem_cons, List.not_mem_nil, or_false]
    tauto
  | none =>
    cases hr
    refine ⟨nofun, ?_⟩
    rintro _ ⟨⟩
    exact h.set hcopy hkind hcount harrays hentries hmade _ rfl

end

/-- **Image selectors.**  A copy has new blocks only, and says what the caller's selector says; a
copy that fails leaves nothing behind. -/
theorem copyOwned_spec (memory : BlockHeap) (levels : Nat) : CopiesOwned ε memory levels := by
  induction levels with
  | zero =>
    rintro raw s s' r ⟨⟩
    exact ⟨fun _ _ ↦ .refl _, nofun⟩
  | succ levels ih =>
    intro raw s s' r hr
    rw [copyOwned] at hr
    split at hr
    · rename_i s₀ hfailed
      cases hr
      refine ⟨fun _ _ ↦ ?_, nofun⟩
      rw [Store.alloc_failed hfailed]
      exact .refl _
    rename_i home s₀ hhome
    split at hr
    · cases hr
    · rename_i hpath
      cases hr
      exact ⟨fun _ _ ↦ strdup_failed hhome hpath, nofun⟩
    rename_i path owned s₁ hpath
    obtain ⟨name, hbegun⟩ := begun hhome hpath
    dsimp only at hr
    split at hr
    · exact copyExplicitSet_spec ih hbegun ‹_› hr
    · rename_i hkind
      cases hr
      refine ⟨nofun, ?_⟩
      rintro _ ⟨⟩
      exact ⟨_, hbegun.plain fun hset ↦ hkind hset.1⟩

theorem copyRawSelector_spec (memory : BlockHeap) (raw : RawSelector) (s : Store ε) :
    (copyRawSelector memory raw s).Spec s fun copy owned s' ↦ ∃ v, raw.read memory = some v ∧
      Keeps copy.read v s'.heap owned ∧ copySelector v s.env = (.ok v, s'.env) := by
  intro r owned s' heq
  rw [copyRawSelector] at heq
  split at heq
  · cases heq
  · rename_i hfailed
    cases heq
    exact ⟨(copyOwned_spec memory selectorLevels raw s _ _ hfailed).1 _ rfl, nofun⟩
  · rename_i o s₁ hcopied
    cases heq
    obtain ⟨v, h⟩ := (copyOwned_spec memory selectorLevels raw s _ _ hcopied).2 o rfl
    refine ⟨h.grows, ?_⟩
    rintro _ ⟨⟩
    exact ⟨v, h.said, h.keeps, h.env⟩

/-! ## Targets -/

theorem copyBase_spec (memory : BlockHeap) (t : RawMemoryTarget) (s : Store ε) :
    (copyBase memory t s).Spec s fun copy owned s' ↦ ∃ v, t.readBase memory = some v ∧
      Keeps (fun g ↦ RawMemoryTarget.readBase { t with baseImage := copy } g) v s'.heap owned ∧
      (if t.addressIsImageRelative then copySelector v s.env else (.ok .zero, s.env)) =
        (.ok v, s'.env) := by
  rw [copyBase]
  by_cases hrelative : t.addressIsImageRelative = true
  · rw [if_pos hrelative]
    refine (copyRawSelector_spec memory t.baseImage s).mono ?_
    rintro copy owned s' - ⟨v, hread, hkeeps, henv⟩
    refine ⟨v, ?_, fun g hg ↦ ?_, ?_⟩
    · rw [RawMemoryTarget.readBase, if_pos hrelative, hread]
    · show RawMemoryTarget.readBase { t with baseImage := copy } g = some v
      rw [RawMemoryTarget.readBase, if_pos hrelative]
      exact hkeeps g hg
    · rw [if_pos hrelative, henv]
  · rw [if_neg hrelative]
    refine .done ⟨.zero, ?_, fun g _ ↦ ?_, ?_⟩
    · rw [RawMemoryTarget.readBase, if_neg hrelative]
    · show RawMemoryTarget.readBase { t with baseImage := RawSelector.zero } g = some .zero
      rw [RawMemoryTarget.readBase, if_neg hrelative]
    · rw [if_neg hrelative]

/-- What is known of the copy of a target. -/
def TargetCopied (memory : BlockHeap) (raw : RawTarget) (s : Store ε) (copy : RawTarget)
    (owned : List BlockAddr) (s' : Store ε) : Prop :=
  ∃ target, raw.read memory = some target ∧ Keeps (fun g ↦ copy.read g) target s'.heap owned ∧
    copyTarget target s.env = (.ok target, s'.env)

/-- **Targets.**  A copy says what the caller's target says, from blocks of its own. -/
theorem copyRawTarget_spec (memory : BlockHeap) (raw : RawTarget) (s : Store ε) :
    (copyRawTarget memory raw s).Spec s (TargetCopied memory raw s) := by
  cases raw with
  | symbol t =>
    refine (strdup_spec memory t.name s).andThen ?_
    rintro name _ s₁ hgrows₁ ⟨rfl, name', hname, hkeeps₁, henv₁⟩
    refine (copyRawSelector_spec memory t.definingImage s₁).andThen ?_
    rintro defining owned₂ s₂ hgrows₂ ⟨defining', hdefining, hkeeps₂, henv₂⟩
    refine (copyRawSelector_spec memory t.callerImageScope s₂).andThen ?_
    rintro scope owned₃ s₃ hgrows₃ ⟨scope', hscope, hkeeps₃, henv₃⟩
    refine .done fun _ _ _ ↦ ⟨.symbol ⟨name', t.nameConvention, t.visibility, defining', scope',
      t.aliasPolicy, t.interiorAddressPermitted⟩, ?_, fun g hg ↦ ?_, ?_⟩
    · rw [RawTarget.read, hname, hdefining, hscope]
      rfl
    · have hname' : readText g name = some name' :=
        hkeeps₁.grows hgrows₁ (hgrows₂.trans hgrows₃) g fun a ha ↦ hg a (by simp_all)
      have hdefining' : defining.read g = some defining' :=
        hkeeps₂.grows hgrows₂ hgrows₃ g fun a ha ↦ hg a (by simp_all)
      have hscope' : scope.read g = some scope' := hkeeps₃ g fun a ha ↦ hg a (by simp_all)
      show RawTarget.read g (.symbol _) = _
      rw [RawTarget.read, hname', hdefining', hscope']
      rfl
    · rw [copyTarget, henv₁]
      dsimp only
      rw [henv₂]
      dsimp only
      rw [henv₃]
  | address t =>
    refine (copyRawSelector_spec memory t.expectedImage s).andThen ?_
    rintro image owned₁ s₁ hgrows₁ ⟨image', himage, hkeeps₁, henv₁⟩
    refine (bytesDup_spec memory t.expectedInitialBytes s₁).andThen ?_
    rintro bytes owned₂ s₂ hgrows₂ ⟨bytes', hbytes, hkeeps₂, henv₂⟩
    refine .done fun _ _ ↦ ⟨.address ⟨t.address, image', t.expectedUuid, bytes',
      t.mayStripPacOrThumbState⟩, ?_, fun g hg ↦ ?_, ?_⟩
    · rw [RawTarget.read, himage, hbytes]
      rfl
    · have himage' : image.read g = some image' :=
        hkeeps₁.grows hgrows₁ hgrows₂ g fun a ha ↦ hg a (by simp_all)
      have hbytes' : bytes.read g = some bytes' := hkeeps₂ g fun a ha ↦ hg a (by simp_all)
      show RawTarget.read g (.address _) = _
      rw [RawTarget.read, himage', hbytes']
      rfl
    · rw [copyTarget, henv₁]
      dsimp only
      rw [henv₂]
  | objc t =>
    refine (strdup_spec memory t.className s).andThen ?_
    rintro className _ s₁ hgrows₁ ⟨rfl, className', hclass, hkeeps₁, henv₁⟩
    refine (strdup_spec memory t.selectorName s₁).andThen ?_
    rintro selectorName _ s₂ hgrows₂ ⟨rfl, selectorName', hselector, hkeeps₂, henv₂⟩
    refine .done fun _ _ ↦ ⟨.objc ⟨t.cls, className', t.sel, selectorName', t.methodKind,
      t.inheritancePolicy, t.availability⟩, ?_, fun g hg ↦ ?_, ?_⟩
    · rw [RawTarget.read, hclass, hselector]
      rfl
    · have hclass' : readText g className = some className' :=
        hkeeps₁.grows hgrows₁ hgrows₂ g fun a ha ↦ hg a (by simp_all)
      have hselector' : readText g selectorName = some selectorName' :=
        hkeeps₂ g fun a ha ↦ hg a (by simp_all)
      show RawTarget.read g (.objc _) = _
      rw [RawTarget.read, hclass', hselector']
      rfl
    · rw [copyTarget, henv₁]
      dsimp only
      rw [henv₂]
  | memory t =>
    refine (copyBase_spec memory t s).andThen ?_
    rintro base owned₁ s₁ hgrows₁ ⟨base', hbase, hkeeps₁, henv₁⟩
    refine (bytesDup_spec memory t.replacementBytes s₁).andThen ?_
    rintro replacement owned₂ s₂ hgrows₂ ⟨replacement', hreplacement, hkeeps₂, henv₂⟩
    refine (bytesDup_spec memory t.expectedBytes s₂).andThen ?_
    rintro expected owned₃ s₃ hgrows₃ ⟨expected', hexpected, hkeeps₃, henv₃⟩
    refine (bytesDup_spec memory t.expectedMask s₃).andThen ?_
    rintro mask owned₄ s₄ hgrows₄ ⟨mask', hmask, hkeeps₄, henv₄⟩
    refine .done fun _ _ _ _ ↦ ⟨.memory ⟨t.address, t.addressIsImageRelative, base', replacement',
      expected', mask', t.size, t.kind⟩, ?_, fun g hg ↦ ?_, ?_⟩
    · rw [RawTarget.read, hbase, hreplacement, hexpected, hmask]
      rfl
    · have hbase' : RawMemoryTarget.readBase { t with baseImage := base } g = some base' :=
        hkeeps₁.grows hgrows₁ (hgrows₂.trans (hgrows₃.trans hgrows₄)) g fun a ha ↦
          hg a (by simp_all)
      have hreplacement' : replacement.read g = some replacement' :=
        hkeeps₂.grows hgrows₂ (hgrows₃.trans hgrows₄) g fun a ha ↦ hg a (by simp_all)
      have hexpected' : expected.read g = some expected' :=
        hkeeps₃.grows hgrows₃ hgrows₄ g fun a ha ↦ hg a (by simp_all)
      have hmask' : mask.read g = some mask' := hkeeps₄ g fun a ha ↦ hg a (by simp_all)
      have hbase'' : RawMemoryTarget.readBase { t with
          baseImage := base, replacementBytes := replacement
          expectedBytes := expected, expectedMask := mask } g = some base' := hbase'
      show RawTarget.read g (.memory _) = _
      rw [RawTarget.read, hbase'', hreplacement', hexpected', hmask']
      rfl
    · rw [copyTarget, henv₁]
      dsimp only
      rw [henv₂]
      dsimp only
      rw [henv₃]
      dsimp only
      rw [henv₄]
  | swiftVtable =>
    rintro r owned s' ⟨⟩
    exact ⟨.refl _, nofun⟩

end HookKit
