import CoroRpc.Lib.Scan
import CoroRpc.Net.PoolShutdown

namespace CoroRpc.Net

open Scan Trace

variable {κ : Type}

namespace ManagerRun

section Keys

theorem toList_key (host : String) (port : UInt16) :
    (key host port).toList = host.toList ++ ':' :: Nat.toDigits 10 port.toNat := by
  simp [key]

theorem colon_not_mem_toDigits (n : Nat) : ':' ∉ Nat.toDigits 10 n := by
  intro h
  have hdigit := Nat.isDigit_of_mem_toDigits (by decide) (by decide) h
  exact absurd hdigit (by decide)

theorem toDigits_inj {m n : Nat} (h : Nat.toDigits 10 m = Nat.toDigits 10 n) : m = n := by
  rw [← Nat.ofDigitChars_ten_toDigits (n := m), h, Nat.ofDigitChars_ten_toDigits]

/-- The port stands behind the last colon, wherever else the host has one. -/
theorem key_inj {host host' : String} {port port' : UInt16} :
    key host port = key host' port' ↔ host = host' ∧ port = port' := by
  constructor
  · intro h
    have hlist := congrArg String.toList h
    rw [toList_key, toList_key] at hlist
    have hlast := congrArg (findLast ':') hlist
    rw [findLast_append (colon_not_mem_toDigits _), findLast_append (colon_not_mem_toDigits _)] at hlast
    obtain ⟨hhost, hport⟩ := List.append_inj hlist (Option.some.inj hlast)
    refine ⟨String.toList_injective hhost, ?_⟩
    exact UInt16.toNat_inj.mp (toDigits_inj (List.cons.inj hport).2)
  · rintro ⟨rfl, rfl⟩
    rfl

end Keys

def returned (m : ManagerRun κ) (host : String) (port : UInt16) : Nat :=
  (m.pools.lookup (key host port)).getD m.created

/-- The manager forgets the pool of the endpoint. -/
def Forgets (host : String) (port : UInt16) (e : ManagerEvent κ) : Prop :=
  e = .removePool host port ∨ e = .shutdownAll

structure Indexed (m : ManagerRun κ) : Prop extends m.Numbered where
  nodup : (m.pools.map Prod.snd).Nodup

theorem Indexed.key_unique {m : ManagerRun κ} (h : m.Indexed) {name name' : String} {i : Nat}
    (hn : (name, i) ∈ m.pools) (hn' : (name', i) ∈ m.pools) : name = name' := by
  have heq := List.inj_on_of_nodup_map h.nodup hn hn' rfl
  exact congrArg Prod.fst heq

theorem lookup_filter_ne (pools : List (String × Nat)) {name name' : String} (h : name ≠ name') :
    (pools.filter fun entry => entry.1 != name').lookup name = pools.lookup name := by
  induction pools with
  | nil => rfl
  | cons entry pools ih =>
      obtain ⟨name'', i⟩ := entry
      by_cases hname : name'' = name'
      · have hne : (name == name'') = false := by
          rw [hname]
          exact beq_false_of_ne h
        rw [List.filter_cons_of_neg (by simp [hname]), ih, List.lookup_cons, hne]
      · rw [List.filter_cons_of_pos (by simp [hname]), List.lookup_cons, List.lookup_cons, ih]

theorem indexed_start : Indexed ({} : ManagerRun κ) := ⟨numbered_start, List.nodup_nil⟩

structure Gone (m : ManagerRun κ) (i : Nat) : Prop where
  made : i < m.created
  absent : i ∉ m.pools.map Prod.snd

theorem Gone.returned_ne {m : ManagerRun κ} {i : Nat} (hg : m.Gone i) (host : String) (port : UInt16) :
    m.returned host port ≠ i := by
  intro hr
  cases hl : m.pools.lookup (key host port) with
  | some j =>
      rw [returned, hl] at hr
      cases hr
      exact hg.absent (List.mem_map_of_mem (mem_of_lookup hl))
  | none =>
      rw [returned, hl] at hr
      cases hr
      exact Nat.lt_irrefl _ hg.made

theorem Indexed.returned_eq_iff {m : ManagerRun κ} (hi : m.Indexed) {host host' : String} {port port' : UInt16}
    {i : Nat} (hl : m.pools.lookup (key host port) = some i) :
    m.returned host' port' = i ↔ host' = host ∧ port' = port := by
  constructor
  · intro hr
    have hmem := mem_of_lookup hl
    cases hl' : m.pools.lookup (key host' port') with
    | some j =>
        rw [returned, hl'] at hr
        cases hr
        exact key_inj.mp (hi.key_unique (mem_of_lookup hl') hmem)
    | none =>
        rw [returned, hl'] at hr
        cases hr
        exact absurd (hi.known _ (List.mem_map_of_mem hmem)) (Nat.lt_irrefl _)
  · rintro ⟨rfl, rfl⟩
    rw [returned, hl]
    rfl

variable [DecidableEq κ] {m m' : ManagerRun κ} {e : ManagerEvent κ}

/-- What a step does to the map. -/
theorem step_map (hs : m.step e = some m') :
    (∃ host port config, e = .getPool host port config ∧ m.pools.lookup (key host port) = none ∧
        m'.pools = (key host port, m.created) :: m.pools ∧ m'.created = m.created + 1) ∨
      (∃ host port, e = .removePool host port ∧
        m'.pools = m.pools.filter (fun entry => entry.1 != key host port) ∧ m'.created = m.created) ∨
      (e = .shutdownAll ∧ m'.pools = [] ∧ m'.created = m.created) ∨
      ((∀ host port, ¬Forgets host port e) ∧ m'.pools = m.pools ∧ m'.created = m.created) := by
  cases e with
  | getPool host port config =>
      simp only [step] at hs
      split at hs
      · cases hs
        exact .inr (.inr (.inr ⟨by simp [Forgets], rfl, rfl⟩))
      · next hnone =>
          cases hs
          exact .inl ⟨host, port, config, rfl, hnone, rfl, rfl⟩
  | use j f =>
      simp only [step] at hs
      split at hs
      · obtain ⟨r, -, rfl⟩ := Option.map_eq_some_iff.mp hs
        exact .inr (.inr (.inr ⟨by simp [Forgets], rfl, rfl⟩))
      · cases hs
  | shutdown j =>
      simp only [step] at hs
      split at hs
      · cases hs
        exact .inr (.inr (.inr ⟨by simp [Forgets], rfl, rfl⟩))
      · cases hs
  | removePool host port =>
      simp only [step] at hs
      split at hs
      · cases hs
        exact .inr (.inl ⟨host, port, rfl, rfl, rfl⟩)
      · next hnone =>
          cases hs
          refine .inr (.inl ⟨host, port, rfl, (List.filter_eq_self.mpr fun entry hentry => ?_).symm, rfl⟩)
          have hne := List.lookup_eq_none_iff.mp hnone entry hentry
          exact bne_iff_ne.mpr (bne_iff_ne.mp hne).symm
  | shutdownAll =>
      cases hs
      exact .inr (.inr (.inl ⟨rfl, rfl, rfl⟩))

theorem Indexed.step (hi : m.Indexed) (hs : m.step e = some m') : m'.Indexed := by
  refine ⟨step_numbered hi.toNumbered hs, ?_⟩
  obtain ⟨host, port, config, -, -, hp, -⟩ | ⟨host, port, -, hp, -⟩ | ⟨-, hp, -⟩ | ⟨-, hp, -⟩ := step_map hs
  · rw [hp, List.map_cons, List.nodup_cons]
    exact ⟨fun hmem => Nat.lt_irrefl _ (hi.known _ hmem), hi.nodup⟩
  · rw [hp]
    exact hi.nodup.sublist (List.filter_sublist.map Prod.snd)
  · rw [hp]
    exact List.nodup_nil
  · rw [hp]
    exact hi.nodup

theorem Gone.step {i : Nat} (hg : m.Gone i) (hs : m.step e = some m') : m'.Gone i := by
  obtain ⟨host, port, config, -, -, hp, hc⟩ | ⟨host, port, -, hp, hc⟩ | ⟨-, hp, hc⟩ | ⟨-, hp, hc⟩ := step_map hs
  · constructor
    · rw [hc]
      exact Nat.lt_succ_of_lt hg.made
    · rw [hp, List.map_cons, List.mem_cons]
      rintro (rfl | hmem)
      · exact Nat.lt_irrefl _ hg.made
      · exact hg.absent hmem
  · constructor
    · exact hc ▸ hg.made
    · rw [hp]
      intro hmem
      exact hg.absent ((List.filter_sublist.map Prod.snd).subset hmem)
  · constructor
    · exact hc ▸ hg.made
    · simp [hp]
  · constructor
    · exact hc ▸ hg.made
    · rw [hp]
      exact hg.absent

theorem step_forgets {host : String} {port : UInt16} {i : Nat} (hi : m.Indexed)
    (hl : m.pools.lookup (key host port) = some i) (hf : Forgets host port e) (hs : m.step e = some m') :
    m'.Gone i := by
  have hmem := mem_of_lookup hl
  have hmade := hi.known i (List.mem_map_of_mem hmem)
  obtain rfl | rfl := hf
  · obtain ⟨_, _, _, he, _⟩ | ⟨_, _, he, hp, hc⟩ | ⟨he, _⟩ | ⟨hn, _⟩ := step_map hs
    · cases he
    · cases he
      refine ⟨hc ▸ hmade, ?_⟩
      rw [hp, List.mem_map]
      rintro ⟨⟨name, j⟩, hentry, rfl⟩
      obtain ⟨hin, hne⟩ := List.mem_filter.mp hentry
      exact bne_iff_ne.mp hne (hi.key_unique hin hmem)
    · cases he
    · exact absurd (.inl rfl) (hn host port)
  · cases hs
    exact ⟨hmade, List.not_mem_nil⟩

theorem step_keeps {host : String} {port : UInt16} {i : Nat} (hl : m.pools.lookup (key host port) = some i)
    (hf : ¬Forgets host port e) (hs : m.step e = some m') : m'.pools.lookup (key host port) = some i := by
  obtain ⟨host', port', config, rfl, hnone, hp, -⟩ | ⟨host', port', rfl, hp, -⟩ | ⟨rfl, -⟩ | ⟨-, hp, -⟩ := step_map hs
  · have hne : key host port ≠ key host' port' := by
      intro heq
      rw [← heq, hl] at hnone
      cases hnone
    rw [hp, List.lookup_cons, beq_false_of_ne hne]
    exact hl
  · have hne : key host port ≠ key host' port' := by
      intro heq
      obtain ⟨rfl, rfl⟩ := key_inj.mp heq
      exact hf (.inl rfl)
    rw [hp, lookup_filter_ne _ hne]
    exact hl
  · exact absurd (.inr rfl) hf
  · rw [hp]
    exact hl

theorem run_keeps {host : String} {port : UInt16} {i : Nat} {evs : List (ManagerEvent κ)}
    (hl : m.pools.lookup (key host port) = some i) (hf : ∀ e ∈ evs, ¬Forgets host port e)
    (hrun : run step m evs = some m') : m'.pools.lookup (key host port) = some i := by
  induction evs generalizing m with
  | nil =>
      rw [run_nil] at hrun
      exact hrun ▸ hl
  | cons e evs ih =>
      obtain ⟨u, hu, hrest⟩ := run_cons.mp hrun
      obtain ⟨hhead, htail⟩ := List.forall_mem_cons.mp hf
      exact ih (step_keeps hl hhead hu) htail hrest

theorem run_forgets {host : String} {port : UInt16} {i : Nat} {evs : List (ManagerEvent κ)} (hi : m.Indexed)
    (hl : m.pools.lookup (key host port) = some i) (hf : ∃ e ∈ evs, Forgets host port e)
    (hrun : run step m evs = some m') : m'.Gone i := by
  induction evs generalizing m with
  | nil => simp at hf
  | cons e evs ih =>
      obtain ⟨u, hu, hrest⟩ := run_cons.mp hrun
      by_cases he : Forgets host port e
      · exact run_inv (fun _ _ _ hg hs => Gone.step hg hs) (step_forgets hi hl he hu) hrest
      · have htail : ∃ e ∈ evs, Forgets host port e := by
          obtain ⟨f, hmem, hforgets⟩ := hf
          obtain rfl | hmem := List.mem_cons.mp hmem
          · exact absurd hforgets he
          · exact ⟨f, hmem, hforgets⟩
        exact ih (hi.step hu) (step_keeps hl he hu) htail hrest

theorem lookup_getPool {host : String} {port : UInt16} {config : ConnectionPoolConfig}
    (hs : m.step (.getPool host port config) = some m') :
    m'.pools.lookup (key host port) = some (m.returned host port) := by
  simp only [step] at hs
  split at hs
  · next i hi =>
      cases hs
      rw [returned, hi]
      rfl
  · next hnone =>
      cases hs
      rw [returned, hnone, List.lookup_cons_self]
      rfl

end ManagerRun

/-- Between any two calls of `get_pool` the clients may use the pools as they like. -/
theorem get_pool_same_iff [DecidableEq κ] (before between : List (ManagerEvent κ)) (host host' : String)
    (port port' : UInt16) (config : ConnectionPoolConfig) {m m' t : ManagerRun κ}
    (hbefore : run ManagerRun.step {} before = some m) (hget : m.step (.getPool host port config) = some m')
    (hbetween : run ManagerRun.step m' between = some t) :
    t.returned host' port' = m.returned host port ↔
      (host' = host ∧ port' = port) ∧ ∀ e ∈ between, ¬ManagerRun.Forgets host port e := by
  have hi : m.Indexed := run_inv (fun _ _ _ hi hs => ManagerRun.Indexed.step hi hs) ManagerRun.indexed_start hbefore
  have hi' := hi.step hget
  have hl := ManagerRun.lookup_getPool hget
  by_cases hf : ∀ e ∈ between, ¬ManagerRun.Forgets host port e
  · have hit : t.Indexed := run_inv (fun _ _ _ hi hs => ManagerRun.Indexed.step hi hs) hi' hbetween
    rw [hit.returned_eq_iff (ManagerRun.run_keeps hl hf hbetween)]
    exact (and_iff_left hf).symm
  · have hgone : t.Gone (m.returned host port) := by
      simp only [not_forall, not_not, exists_prop] at hf
      exact ManagerRun.run_forgets hi' hl hf hbetween
    exact iff_of_false (hgone.returned_ne host' port') fun h => hf h.2

/-- The keys are `::1:80` and `::180`; only the first pool is removed. -/
theorem get_pool_same_colons :
    ∃ m m' t : ManagerRun Nat, run ManagerRun.step {} [.getPool "::1" 80 {}] = some m ∧
      m.step (.getPool ":" 180 {}) = some m' ∧ run ManagerRun.step m' [.removePool "::1" 80] = some t ∧
      t.returned ":" 180 = m.returned ":" 180 := by
  refine ⟨_, _, _, rfl, rfl, rfl, ?_⟩
  refine (get_pool_same_iff [.getPool "::1" 80 {}] [.removePool "::1" 80] ":" ":" 180 180 {} rfl rfl rfl).mpr ?_
  exact ⟨⟨rfl, rfl⟩, by simp [ManagerRun.Forgets]⟩

end CoroRpc.Net
