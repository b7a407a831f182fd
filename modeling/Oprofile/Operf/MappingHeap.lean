import Oprofile.Operf.Runs

/-! Which mappings stay on the heap: all but those of the hypervisor. -/
namespace Oprofile.Operf

/-- The heap is left alone. -/
structure SameHeap (t t' : Processes) : Prop where
  mmaps : t'.mmaps = t.mmaps
  next : t'.nextMmap = t.nextMmap

theorem SameHeap.refl (t : Processes) : SameHeap t t := ⟨rfl, rfl⟩

theorem SameHeap.comp {t t' t'' : Processes} (h : SameHeap t t') (h' : SameHeap t' t'') :
    SameHeap t t'' := ⟨h'.mmaps.trans h.mmaps, h'.next.trans h.next⟩

namespace Processes

variable {env : Env} {t t' : Processes} {p : ProcessInfo} {pid : UInt32}

theorem set_sameHeap (t : Processes) (p : ProcessInfo) : SameHeap t (t.set p) := ⟨rfl, rfl⟩

theorem setAppname_sameHeap {name : Option CString} {full : Bool}
    (h : t.setAppname env p name full = some t') : SameHeap t t' := by
  simp only [Processes.setAppname, Option.bind_eq_bind, Option.bind_eq_some_iff] at h
  obtain ⟨ms, -, h⟩ := h
  cases h
  exact ⟨rfl, rfl⟩

theorem setNewMappingRecursive_sameHeap {fuel : Nat} {mapping : MmapId} {doSelf : Bool}
    (h : t.setNewMappingRecursive fuel pid mapping doSelf = some t') : SameHeap t t' := by
  induction fuel generalizing t t' pid doSelf with
  | zero => cases h
  | succ fuel ih =>
    simp only [setNewMappingRecursive, Option.bind_eq_bind, Option.bind_eq_some_iff] at h
    obtain ⟨p, -, m, -, h⟩ := h
    exact (set_sameHeap t _).comp
      (foldlM_rel SameHeap.refl (fun _ _ _ => SameHeap.comp) (fun _ _ _ hstep => ih hstep) h)

theorem nameFromMapping_sameHeap {m : OperfMmap} (h : t.nameFromMapping env p m = some t') :
    SameHeap t t' := by
  unfold nameFromMapping at h
  split at h
  · split at h
    · cases h
      exact set_sameHeap t _
    · exact setAppname_sameHeap h
  · cases h
    exact SameHeap.refl t

theorem processMapping_sameHeap {mapping : MmapId} {doSelf : Bool}
    (h : t.processMapping env pid mapping doSelf = some t') : SameHeap t t' := by
  simp only [processMapping, Option.bind_eq_bind, Option.bind_eq_some_iff] at h
  obtain ⟨p, -, m, -, t₁, h₁, h⟩ := h
  exact (nameFromMapping_sameHeap h₁).comp (setNewMappingRecursive_sameHeap h)

theorem ensureProcess_sameHeap {name : Option CString} {full : Bool}
    (h : t.ensureProcess env pid name full = some t') : SameHeap t t' := by
  unfold ensureProcess at h
  split at h
  · cases h
    exact SameHeap.refl t
  · exact setAppname_sameHeap h

theorem setForkInfo_sameHeap {forked parent : UInt32}
    (h : t.setForkInfo env forked parent = some t') : SameHeap t t' := by
  simp only [setForkInfo, copyMappingsToForkedProcess, Option.bind_eq_bind,
    Option.bind_eq_some_iff] at h
  obtain ⟨p, -, q, -, r, -, h⟩ := h
  have hcopy := foldlM_rel SameHeap.refl (fun _ _ _ => SameHeap.comp)
    (fun _ _ _ hstep => processMapping_sameHeap hstep) h
  exact ((set_sameHeap t _).comp (set_sameHeap _ _)).comp hcopy

theorem keepOrDropMapping_sameHeap {kv : UInt64 × MmapId}
    (h : keepOrDropMapping env pid t kv = some t') : SameHeap t t' := by
  simp only [keepOrDropMapping, Option.bind_eq_bind, Option.bind_eq_some_iff] at h
  obtain ⟨p, -, cur, -, h⟩ := h
  split at h
  · cases h
    exact set_sameHeap t _
  · exact processMapping_sameHeap h

theorem leaveParent_sameHeap (h : t.leaveParent p = some t') : SameHeap t t' := by
  unfold leaveParent at h
  split at h
  · simp only [removeForkedProcess, Option.bind_eq_bind, Option.bind_eq_some_iff] at h
    obtain ⟨q, -, h⟩ := h
    cases h
    exact set_sameHeap t _
  · cases h
    exact SameHeap.refl t

theorem tryDisassociateFromParent_sameHeap {name : CString}
    (h : t.tryDisassociateFromParent env pid name = some t') : SameHeap t t' := by
  simp only [tryDisassociateFromParent, Option.bind_eq_bind, Option.bind_eq_some_iff] at h
  obtain ⟨p, -, h⟩ := h
  split at h
  · cases h
    exact SameHeap.refl t
  · simp only [Option.bind_eq_some_iff] at h
    obtain ⟨t₁, h₁, t₂, h₂, t₃, h₃, q, -, h⟩ := h
    cases h
    have hname : SameHeap t t₁ := (set_sameHeap t _).comp (setAppname_sameHeap h₁)
    have hloop : SameHeap t₁ t₂ :=
      foldlM_rel SameHeap.refl (fun _ _ _ => SameHeap.comp)
        (fun _ _ _ hstep => keepOrDropMapping_sameHeap hstep) h₂
    exact ((hname.comp hloop).comp (leaveParent_sameHeap h₃)).comp (set_sameHeap t₃ _)

end Processes

/-- Every mapping has been made. -/
def HeapOk (t : Processes) : Prop := ∀ id m, t.mmaps id = some m → id < t.nextMmap

/-- A mapping of a file, of anonymous memory or of the kernel. -/
def Ordinary (t : Processes) (id : MmapId) (m : OperfMmap) : Prop :=
  t.mmaps id = some m ∧ m.isHypervisor = false

/-- Ordinary mappings are neither changed nor deleted. -/
def KeepsOrdinary (t t' : Processes) : Prop :=
  HeapOk t → HeapOk t' ∧ ∀ id m, Ordinary t id m → Ordinary t' id m

theorem SameHeap.keepsOrdinary {t t' : Processes} (h : SameHeap t t') : KeepsOrdinary t t' := by
  refine fun hok => ⟨fun id m hm => ?_, fun id m hm => ?_⟩
  · rw [h.next]
    rw [h.mmaps] at hm
    exact hok id m hm
  · rw [Ordinary, h.mmaps]
    exact hm

namespace KeepsOrdinary

variable {t t' t'' : Processes}

theorem refl (t : Processes) : KeepsOrdinary t t := (SameHeap.refl t).keepsOrdinary

theorem comp (h : KeepsOrdinary t t') (h' : KeepsOrdinary t' t'') : KeepsOrdinary t t'' := by
  intro hok
  obtain ⟨hok', hkept⟩ := h hok
  obtain ⟨hok'', hkept'⟩ := h' hok'
  exact ⟨hok'', fun id m hm => hkept' id m (hkept id m hm)⟩

theorem newMmap (t : Processes) (m : OperfMmap) : KeepsOrdinary t (t.newMmap m) := by
  refine fun hok => ⟨fun id m' hm' => ?_, fun id m' hm' => ⟨?_, hm'.2⟩⟩
  · by_cases heq : id = t.nextMmap
    · rw [heq]
      exact Nat.lt_succ_self _
    · simp only [Processes.newMmap, heq, if_false] at hm'
      exact Nat.lt_succ_of_lt (hok id m' hm')
  · have hne : id ≠ t.nextMmap := Nat.ne_of_lt (hok id m' hm'.1)
    simp only [Processes.newMmap, if_neg hne]
    exact hm'.1

/-- A mapping of the hypervisor is replaced or deleted. -/
theorem setMmap {id : MmapId} {m : OperfMmap} (hm : t.mmaps id = some m) (hhv : m.isHypervisor = true)
    (o : Option OperfMmap) : KeepsOrdinary t (t.setMmap id o) := by
  refine fun hok => ⟨fun id' m' hm' => ?_, fun id' m' hm' => ⟨?_, hm'.2⟩⟩
  · by_cases heq : id' = id
    · rw [heq]
      exact hok id m hm
    · simp only [Processes.setMmap, heq, if_false] at hm'
      exact hok id' m' hm'
  · have hne : id' ≠ id := by
      rintro rfl
      have hsame := Option.some_inj.mp (hm.symm.trans hm'.1)
      rw [hsame, hm'.2] at hhv
      cases hhv
    simp only [Processes.setMmap, if_neg hne]
    exact hm'.1

end KeepsOrdinary

theorem mapM_mem {α β : Type} {f : α → Option β} {xs : List α} {ys : List β} {y : β}
    (h : xs.mapM f = some ys) (hy : y ∈ ys) : ∃ x ∈ xs, f x = some y := by
  induction xs generalizing ys with
  | nil =>
    cases h
    cases hy
  | cons x xs ih =>
    simp only [List.mapM_cons, Option.bind_eq_bind, Option.pure_def, Option.bind_eq_some_iff] at h
    obtain ⟨y', hy', ys', hys', heq⟩ := h
    cases heq
    rcases List.mem_cons.mp hy with rfl | hy
    · exact ⟨x, List.mem_cons_self, hy'⟩
    · obtain ⟨x', hx', hfx⟩ := ih hys' hy
      exact ⟨x', List.mem_cons_of_mem _ hx', hfx⟩

theorem mapM_zip_mem {α β : Type} {f : α → Option β} {xs : List α} {ys : List β} {x : α} {y : β}
    (h : xs.mapM f = some ys) (hxy : (x, y) ∈ xs.zip ys) : f x = some y := by
  induction xs generalizing ys with
  | nil => cases hxy
  | cons x' xs ih =>
    simp only [List.mapM_cons, Option.bind_eq_bind, Option.pure_def, Option.bind_eq_some_iff] at h
    obtain ⟨y', hy', ys', hys', heq⟩ := h
    cases heq
    rcases List.mem_cons.mp hxy with heq | hmem
    · cases heq
      exact hy'
    · exact ih hys' hmem

theorem mapM_zip_exists {α β : Type} {f : α → Option β} {xs : List α} {ys : List β} {x : α}
    (h : xs.mapM f = some ys) (hx : x ∈ xs) : ∃ y, (x, y) ∈ xs.zip ys ∧ f x = some y := by
  induction xs generalizing ys with
  | nil => cases hx
  | cons x' xs ih =>
    simp only [List.mapM_cons, Option.bind_eq_bind, Option.pure_def, Option.bind_eq_some_iff] at h
    obtain ⟨y', hy', ys', hys', heq⟩ := h
    cases heq
    rcases List.mem_cons.mp hx with rfl | hx
    · exact ⟨y', List.mem_cons_self, hy'⟩
    · obtain ⟨y, hxy, hy⟩ := ih hys' hx
      exact ⟨y, List.mem_cons_of_mem _ hxy, hy⟩

theorem processHypervisorMapping_keeps {env : Env} {t t' : Processes} {pid : UInt32} {ip : UInt64}
    (h : t.processHypervisorMapping env pid ip = some t') : KeepsOrdinary t t' := by
  simp only [Processes.processHypervisorMapping, Option.bind_eq_bind, Option.bind_eq_some_iff] at h
  obtain ⟨p, -, ms, hms, h⟩ := h
  split at h
  · exact (KeepsOrdinary.newMmap t _).comp (Processes.processMapping_sameHeap h).keepsOrdinary
  · rename_i start id m hfound
    have hhv : m.isHypervisor = true := by simpa using List.find?_some hfound
    have hm : t.mmaps id = some m := mapM_zip_mem (f := fun kv : UInt64 × MmapId => t.mmaps kv.2) hms
      (List.mem_of_find?_eq_some hfound)
    split at h
    · have hset : SameHeap t (t.set { p with mmappings := KeyMap.erase start p.mmappings }) :=
        Processes.set_sameHeap t _
      exact ((hset.keepsOrdinary.comp (KeepsOrdinary.setMmap hm hhv none)).comp
        (KeepsOrdinary.newMmap _ _)).comp (Processes.processMapping_sameHeap h).keepsOrdinary
    · split at h
      · cases h
        exact KeepsOrdinary.setMmap hm hhv _
      · cases h
        exact KeepsOrdinary.refl t

end Oprofile.Operf
