import Mathlib.Data.Finset.Basic
import Mathlib.Data.List.Basic
import Mathlib.Tactic.Common

/-!
# Logs under elected leaders

A replicated log that is written by one leader after another, each of a higher
term than the last, as in Raft.  Entries carry the term they were made in.  This
file is about the history only: which logs the leaders had, who acknowledged
what, who voted with which log, and what was committed.  Servers, messages and
steps are not mentioned, so nothing here depends on how a program arrives at
such a history.

* `History.complete`: what was committed in one term is in the log of every
  leader of a later term.  A later leader was elected by a quorum, one member of
  which had acknowledged the commit before it voted; the leader's log was at
  least as up to date as that member's.
* `History.comparable`: of two commits, one extends the other.

Logs may be compacted, so a leader need not have read the part of its log below
its snapshot: `Sound.form` asks that this part was committed, and that what lies
above it agrees with the log of the leader that wrote it, from the snapshot on.
-/

namespace ShardRaft.Lib

variable {ι α : Type}

/-- What has happened to the logs so far. -/
structure History (ι α : Type) where
  /-- There was a leader of this term. -/
  leads : Int → Prop
  /-- Its log when it was elected. -/
  elog : Int → List α
  /-- Its log as far as it got. -/
  llog : Int → List α
  /-- The server has voted in this term. -/
  voted : ι → Int → Prop
  /-- Its log when it did. -/
  vlog : ι → Int → List α
  /-- The server has acknowledged so many entries of the leader of this term. -/
  acks : ι → Int → Nat → Prop
  /-- The leader of this term has committed this prefix of its log. -/
  commits : Int → List α → Prop

section order

variable (term : α → Int) (base : Int)

/-- The term of the last entry. -/
def lastTerm (l : List α) : Int := (l.getLast?.map term).getD base

/-- The comparison of logs on which votes are based. -/
def UpToDate (v e : List α) : Prop :=
  lastTerm term base v < lastTerm term base e ∨
    (lastTerm term base v = lastTerm term base e ∧ v.length ≤ e.length)

/-- The last entry of `p` was made in term `T`. -/
def EndsIn (T : Int) (p : List α) : Prop := ∃ a, p.getLast? = some a ∧ term a = T

end order

namespace History

variable (h : History ι α) (term : α → Int) (base : Int)

/-- A term in which entries may have been made; in term `base` the initial ones. -/
def Origin (t : Int) : Prop := t = base ∨ h.leads t

/-- From index `b` on, `l` agrees with the logs of the leaders that wrote it. -/
def SegClean (b : Nat) (l : List α) : Prop :=
  ∀ m a, b ≤ m → l[m]? = some a → h.Origin base (term a) ∧
    ∀ j, b ≤ j → j ≤ m → l[j]? = (h.llog (term a))[j]?

/-- `l` was committed by some leader up to term `t`. -/
def Committed (t : Int) (l : List α) : Prop :=
  l = [] ∨ ∃ T p, h.commits T p ∧ T ≤ t ∧ l <+: p

/-- Server `u` has acknowledged `p`, the last entry of which is of term `T`. -/
def Acked (u : ι) (T : Int) (p : List α) : Prop :=
  p <+: h.llog T ∧ EndsIn term T p ∧ ∃ m, h.acks u T m ∧ p.length ≤ m

/-- Some leader between `T` and `t` was elected without `p`. -/
def Lost (p : List α) (T t : Int) : Prop :=
  ∃ T', T < T' ∧ T' ≤ t ∧ h.leads T' ∧ ¬ p <+: h.elog T'

/-- `l` still has `p` in term `t`, unless a leader has come that has not. -/
def Kept (p : List α) (T t : Int) (l : List α) : Prop :=
  (p <+: l ∧ T ≤ lastTerm term base l) ∨ h.Lost p T t

/-- What ties the parts of a history together. -/
structure Sound (quorum : Finset ι → Prop) : Prop where
  meet : ∀ q q', quorum q → quorum q' → ∃ u, u ∈ q ∧ u ∈ q'
  base_lt : ∀ T, h.leads T → base < T
  base_log : ∀ a ∈ h.llog base, term a = base
  grows : ∀ T, h.leads T → h.elog T <+: h.llog T
  old : ∀ T, h.leads T → ∀ a ∈ h.elog T, term a < T
  new : ∀ T, h.leads T → ∀ m a, (h.elog T).length ≤ m → (h.llog T)[m]? = some a → term a = T
  form : ∀ T, h.leads T →
    ∃ b, h.Committed (T - 1) ((h.elog T).take b) ∧ h.SegClean term base b (h.elog T)
  voters : ∀ T, h.leads T → ∃ q, quorum q ∧ ∀ u ∈ q, h.voted u (T - 1) ∧
    UpToDate term base (h.vlog u (T - 1)) (h.elog T)
  kept : ∀ u t, h.voted u t → ∀ T p, h.Acked term u T p → T ≤ t →
    h.Kept term base p T t (h.vlog u t)
  ack : ∀ u T m, h.acks u T m → h.leads T ∧ m ≤ (h.llog T).length
  commit : ∀ T p, h.commits T p → h.leads T ∧ ∃ q, quorum q ∧ ∀ u ∈ q, h.Acked term u T p

end History

/-! ### Prefixes -/

theorem prefix_of_seg {l L : List α} {b : Nat} (hb : l.take b <+: L)
    (hs : ∀ j, b ≤ j → j < l.length → l[j]? = L[j]?) : l <+: L := by
  rw [List.prefix_iff_getElem?]
  intro j hj
  rw [← List.getElem?_eq_getElem hj]
  by_cases hjb : b ≤ j
  · exact (hs j hjb hj).symm
  · have hlt : j < (l.take b).length := by rw [List.length_take]; omega
    have hget := (List.prefix_iff_getElem?.mp hb) j hlt
    rw [hget, List.getElem_take, List.getElem?_eq_getElem hj]

theorem lastTerm_concat {term : α → Int} {base : Int} {l : List α} {a : α} :
    lastTerm term base (l ++ [a]) = term a := by
  simp [lastTerm]

theorem exists_last {term : α → Int} {base : Int} {l : List α}
    (h : base < lastTerm term base l) :
    ∃ a, l[l.length - 1]? = some a ∧ term a = lastTerm term base l ∧ 0 < l.length := by
  unfold lastTerm at h ⊢
  rw [← List.getLast?_eq_getElem?]
  cases hl : l.getLast? with
  | none => rw [hl] at h; exact absurd h (by simp)
  | some a =>
    refine ⟨a, rfl, by simp, ?_⟩
    by_contra hn
    have hnil : l = [] := List.eq_nil_of_length_eq_zero (by omega)
    rw [hnil] at hl
    exact absurd hl (by simp)

namespace History

variable {h : History ι α} {term : α → Int} {base : Int} {quorum : Finset ι → Prop}

theorem Committed.mono {t t' : Int} {l : List α} (hc : h.Committed t l) (ht : t ≤ t') :
    h.Committed t' l := by
  rcases hc with hnil | ⟨T, p, hc, hT, hp⟩
  · exact .inl hnil
  · exact .inr ⟨T, p, hc, hT.trans ht, hp⟩

theorem Committed.shorten {t : Int} {l l' : List α} (hc : h.Committed t l) (hl : l' <+: l) :
    h.Committed t l' := by
  rcases hc with rfl | ⟨T, p, hc, hT, hp⟩
  · exact .inl (List.prefix_nil.mp hl)
  · exact .inr ⟨T, p, hc, hT, hl.trans hp⟩

/-- No entry of a leader's log is of a later term. -/
theorem Sound.le_term (hs : h.Sound term base quorum) {T : Int} (hl : h.leads T) {m : Nat} {a : α}
    (ha : (h.llog T)[m]? = some a) : term a ≤ T := by
  by_cases hm : (h.elog T).length ≤ m
  · exact (hs.new T hl m a hm ha).le
  · have hlt : m < (h.elog T).length := by omega
    have hget := (List.prefix_iff_getElem?.mp (hs.grows T hl)) m hlt
    rw [ha] at hget
    rw [Option.some.inj hget]
    exact (hs.old T hl _ (List.getElem_mem hlt)).le

/-- What was committed in term `T` is a prefix of the log of any leader, from
`T` on, whose election it survived. -/
theorem Sound.commit_prefix (hs : h.Sound term base quorum) {T T' : Int} {p : List α}
    (hc : h.commits T p) (hle : T ≤ T') (hl : h.leads T')
    (hlc : T < T' → p <+: h.elog T') : p <+: h.llog T' := by
  by_cases heq : T = T'
  · obtain ⟨-, q, hq, hack⟩ := hs.commit T p hc
    obtain ⟨u, hu, -⟩ := hs.meet q q hq hq
    rw [← heq]
    exact (hack u hu).1
  · exact (hlc (by omega)).trans (hs.grows T' hl)

/-- An earlier leader's log has every earlier commit; the induction hypothesis
of `complete`. -/
def CompleteBelow (h : History ι α) (T' : Int) : Prop :=
  ∀ T'', h.leads T'' → T'' < T' → ∀ T p, h.commits T p → T < T'' → p <+: h.elog T''

theorem Sound.commit_prefix_below (hs : h.Sound term base quorum) {T' : Int}
    (ih : h.CompleteBelow T') {T T'' : Int} {p : List α} (hc : h.commits T p) (hle : T ≤ T'')
    (hl : h.leads T'') (hlt : T'' < T') : p <+: h.llog T'' :=
  hs.commit_prefix hc hle hl fun hT => ih T'' hl hlt T p hc hT

theorem Sound.comparable_below (hs : h.Sound term base quorum) {T' : Int}
    (ih : h.CompleteBelow T') {T₁ T₂ : Int} {p₁ p₂ : List α} (h₁ : h.commits T₁ p₁)
    (h₂ : h.commits T₂ p₂) (hlt₁ : T₁ < T') (hlt₂ : T₂ < T') : p₁ <+: p₂ ∨ p₂ <+: p₁ := by
  by_cases hle : T₁ ≤ T₂
  · have hl := (hs.commit T₂ p₂ h₂).1
    exact List.prefix_or_prefix_of_prefix (hs.commit_prefix_below ih h₁ hle hl hlt₂)
      (hs.commit_prefix_below ih h₂ le_rfl hl hlt₂)
  · have hl := (hs.commit T₁ p₁ h₁).1
    exact List.prefix_or_prefix_of_prefix (hs.commit_prefix_below ih h₁ le_rfl hl hlt₁)
      (hs.commit_prefix_below ih h₂ (by omega) hl hlt₁)

/-- The voter that had acknowledged the commit makes the leader's log as up to
date as the commit. -/
theorem Sound.up_to_date (hs : h.Sound term base quorum) {T' : Int} (hl : h.leads T')
    (ih : h.CompleteBelow T') {T : Int} {p : List α} (hc : h.commits T p) (hlt : T < T') :
    T < lastTerm term base (h.elog T') ∨
      (T = lastTerm term base (h.elog T') ∧ p.length ≤ (h.elog T').length) := by
  obtain ⟨-, q, hq, hack⟩ := hs.commit T p hc
  obtain ⟨q', hq', hvote⟩ := hs.voters T' hl
  obtain ⟨u, hu, hu'⟩ := hs.meet q q' hq hq'
  obtain ⟨hv, hup⟩ := hvote u hu'
  rcases hs.kept u (T' - 1) hv T p (hack u hu) (by omega) with ⟨hp, ht⟩ | ⟨T'', h1, h2, h3, h4⟩
  · rcases hup with hgt | ⟨heq, hlen⟩
    · exact .inl (by omega)
    · by_cases htt : T < lastTerm term base (h.elog T')
      · exact .inl htt
      · exact .inr ⟨by omega, hp.length_le.trans hlen⟩
  · exact absurd (ih T'' h3 (by omega) T p hc h1) h4

theorem Sound.commit_le_term (hs : h.Sound term base quorum) {T : Int} {p : List α}
    (hc : h.commits T p) {m : Nat} {a : α} (ha : p[m]? = some a) : term a ≤ T := by
  obtain ⟨hl, q, hq, hack⟩ := hs.commit T p hc
  obtain ⟨u, hu, -⟩ := hs.meet q q hq hq
  obtain ⟨hp, -⟩ := hack u hu
  obtain ⟨hm, rfl⟩ := List.getElem?_eq_some_iff.mp ha
  exact hs.le_term hl ((List.prefix_iff_getElem?.mp hp) m hm)

/-- **The step of the induction.**  `e` is the log the leader was elected with,
`b` its boundary. -/
theorem Sound.complete_step (hs : h.Sound term base quorum) {T' : Int} (hl : h.leads T')
    (ih : h.CompleteBelow T') {T : Int} {p : List α} (hc : h.commits T p) (hlt : T < T') :
    p <+: h.elog T' := by
  have hlT : h.leads T := (hs.commit T p hc).1
  have hup := hs.up_to_date hl ih hc hlt
  have hbase : base < lastTerm term base (h.elog T') := by
    have := hs.base_lt T hlT
    omega
  obtain ⟨a, ha, hterm, hpos⟩ := exists_last hbase
  obtain ⟨b, hB, hseg⟩ := hs.form T' hl
  have hτ : term a < T' := hs.old T' hl a (List.mem_of_getElem? ha)
  -- a log that has the last entry of `e` at its place, and `p`, has no shorter `e`
  have hlen : ∀ L : List α, p <+: L → L[(h.elog T').length - 1]? = some a →
      p.length ≤ (h.elog T').length := by
    intro L hpL hLa
    rcases hup with hgt | ⟨-, hle⟩
    · by_contra hn
      have hm : (h.elog T').length - 1 < p.length := by omega
      have hget := (List.prefix_iff_getElem?.mp hpL) _ hm
      have hpa : p[(h.elog T').length - 1]? = some a := by
        rw [List.getElem?_eq_getElem hm, ← hget, hLa]
      have := hs.commit_le_term hc hpa
      omega
    · exact hle
  by_cases hbe : b ≤ (h.elog T').length - 1
  · -- the last entry lies above the boundary
    obtain ⟨horig, hagree⟩ := hseg _ a hbe ha
    have hlτ : h.leads (term a) := by
      rcases horig with heq | hl'
      · omega
      · exact hl'
    have hpτ : p <+: h.llog (term a) :=
      hs.commit_prefix_below ih hc (by omega) hlτ hτ
    have hle : p.length ≤ (h.elog T').length :=
      hlen _ hpτ ((hagree _ hbe le_rfl).symm.trans ha)
    have hdone : (h.elog T').take b <+: h.llog (term a) → p <+: h.elog T' := by
      intro hBτ
      have heτ : h.elog T' <+: h.llog (term a) :=
        prefix_of_seg hBτ fun j hj hjl => hagree j hj (by omega)
      exact List.prefix_of_prefix_length_le hpτ heτ hle
    rcases hB with hnil | ⟨Tc, pc, hcc, hTc, hBp⟩
    · exact hdone (by rw [hnil]; exact List.nil_prefix)
    · rcases hs.comparable_below ih hc hcc hlt (by omega) with hpp | hpp
      · -- the commit is below the boundary, or the boundary is inside the commit
        rcases List.prefix_or_prefix_of_prefix hpp hBp with hpB | hBp'
        · exact hpB.trans (List.take_prefix _ _)
        · exact hdone (hBp'.trans hpτ)
      · exact hdone ((hBp.trans hpp).trans hpτ)
  · -- the whole log lies below the boundary, so it was committed
    have htake : (h.elog T').take b = h.elog T' := List.take_of_length_le (by omega)
    rw [htake] at hB
    rcases hB with hnil | ⟨Tc, pc, hcc, hTc, hBp⟩
    · rw [hnil] at hpos; exact absurd hpos (by simp)
    · rcases hs.comparable_below ih hc hcc hlt (by omega) with hpp | hpp
      · have hget := (List.prefix_iff_getElem?.mp hBp) _ (show (h.elog T').length - 1 < _ by omega)
        rw [← List.getElem?_eq_getElem, ha] at hget
        exact List.prefix_of_prefix_length_le hpp hBp (hlen pc hpp hget)
      · have hep : h.elog T' <+: p := hBp.trans hpp
        have hget := (List.prefix_iff_getElem?.mp hep) _ (show (h.elog T').length - 1 < _ by omega)
        rw [← List.getElem?_eq_getElem, ha] at hget
        exact List.prefix_of_prefix_length_le List.prefix_rfl hep (hlen p List.prefix_rfl hget)

theorem Sound.completeBelow (hs : h.Sound term base quorum) :
    ∀ (k : Nat) (T' : Int), T' ≤ base + k → h.CompleteBelow T' := by
  intro k
  induction k with
  | zero =>
    intro T' hk T'' hl hlt
    have := hs.base_lt T'' hl
    omega
  | succ k ih =>
    intro T' hk T'' hl hlt T p hc hT
    exact hs.complete_step hl (ih T'' (by omega)) hc hT

/-- **Leader completeness.**  What was committed is in the log of every later
leader. -/
theorem Sound.complete (hs : h.Sound term base quorum) {T T' : Int} {p : List α}
    (hc : h.commits T p) (hl : h.leads T') (hlt : T < T') : p <+: h.elog T' :=
  hs.completeBelow (T' + 1 - base).toNat (T' + 1) (by omega) T' hl (by omega) T p hc hlt

/-- **Of two commits, one extends the other.** -/
theorem Sound.comparable (hs : h.Sound term base quorum) {T₁ T₂ : Int} {p₁ p₂ : List α}
    (h₁ : h.commits T₁ p₁) (h₂ : h.commits T₂ p₂) : p₁ <+: p₂ ∨ p₂ <+: p₁ := by
  have hmax : h.CompleteBelow (max T₁ T₂ + 1) :=
    hs.completeBelow (max T₁ T₂ + 1 - base).toNat _ (by omega)
  exact hs.comparable_below hmax h₁ h₂ (by omega) (by omega)

/-- What was committed up to term `t` is in the log of every leader from `t` on. -/
theorem Sound.committed_prefix (hs : h.Sound term base quorum) {t T : Int} {l : List α}
    (hC : h.Committed t l) (hl : h.leads T) (hle : t ≤ T) : l <+: h.llog T := by
  rcases hC with rfl | ⟨Tc, p, hc, hTc, hp⟩
  · exact List.nil_prefix
  · exact hp.trans (hs.commit_prefix hc (by omega) hl fun hlt => hs.complete hc hl hlt)

theorem Sound.committed_comparable (hs : h.Sound term base quorum) {t t' : Int} {l l' : List α}
    (hl : h.Committed t l) (hl' : h.Committed t' l') : l <+: l' ∨ l' <+: l := by
  rcases hl with rfl | ⟨T, p, hc, -, hp⟩
  · exact .inl List.nil_prefix
  rcases hl' with rfl | ⟨T', p', hc', -, hp'⟩
  · exact .inr List.nil_prefix
  rcases hs.comparable hc hc' with hpp | hpp
  · exact List.prefix_or_prefix_of_prefix (hp.trans hpp) hp'
  · exact List.prefix_or_prefix_of_prefix hp (hp'.trans hpp)

/-- A leader is elected with a prefix of an earlier log, although it may never
have seen the part below its boundary. -/
theorem Sound.elog_origin (hs : h.Sound term base quorum) {T' : Int} (hl : h.leads T')
    (hne : h.elog T' ≠ []) : ∃ t, h.Origin base t ∧ t < T' ∧ h.elog T' <+: h.llog t := by
  obtain ⟨b, hB, hseg⟩ := hs.form T' hl
  have hpos : 0 < (h.elog T').length := List.length_pos_of_ne_nil hne
  obtain ⟨a, ha⟩ : ∃ a, (h.elog T')[(h.elog T').length - 1]? = some a :=
    ⟨_, List.getElem?_eq_getElem (by omega)⟩
  have hlast : lastTerm term base (h.elog T') = term a := by
    rw [lastTerm, List.getLast?_eq_getElem?, ha]; rfl
  have hτ : term a < T' := hs.old T' hl a (List.mem_of_getElem? ha)
  by_cases hbe : b ≤ (h.elog T').length - 1
  · obtain ⟨horig, hagree⟩ := hseg _ a hbe ha
    refine ⟨term a, horig, hτ, prefix_of_seg ?_ fun j hj hjl => hagree j hj (by omega)⟩
    rcases hB with hnil | ⟨Tc, pc, hcc, hTc, hBp⟩
    · rw [hnil]; exact List.nil_prefix
    · -- the commit is not newer than the last entry, so its writer has it
      have hup := hs.up_to_date hl (hs.completeBelow (T' - base).toNat T' (by omega)) hcc (by omega)
      have hbc := hs.base_lt Tc (hs.commit Tc pc hcc).1
      have hlτ : h.leads (term a) := by
        rcases horig with heq | hl'
        · omega
        · exact hl'
      exact hs.committed_prefix (.inr ⟨Tc, pc, hcc, le_rfl, hBp⟩) hlτ (by omega)
  · rw [List.take_of_length_le (by omega)] at hB
    rcases hB with hnil | ⟨Tc, pc, hcc, hTc, hBp⟩
    · exact absurd hnil hne
    · have hlc := (hs.commit Tc pc hcc).1
      exact ⟨Tc, .inr hlc, by omega, hs.committed_prefix (.inr ⟨Tc, pc, hcc, le_rfl, hBp⟩) hlc le_rfl⟩

/-! ### Log matching -/

/-- Every entry of a leader's log stands there as in the log of the leader that
made it, with all that precedes it. -/
def Clean (h : History ι α) (term : α → Int) (base : Int) : Prop :=
  ∀ T, h.Origin base T → ∀ m a, (h.llog T)[m]? = some a →
    h.Origin base (term a) ∧ (h.llog T).take (m + 1) <+: h.llog (term a)

/-- A prefix of a clean log is clean from any boundary on. -/
theorem Clean.segClean (hc : h.Clean term base) {T : Int} (ho : h.Origin base T) {l : List α}
    (hl : l <+: h.llog T) (b : Nat) : h.SegClean term base b l := by
  intro m a hbm ha
  have hget : ∀ j, j < l.length → l[j]? = (h.llog T)[j]? := by
    intro j hj
    rw [(List.prefix_iff_getElem?.mp hl) j hj, List.getElem?_eq_getElem hj]
  have hm : m < l.length := (List.getElem?_eq_some_iff.mp ha).1
  obtain ⟨ho', hp⟩ := hc T ho m a ((hget m hm).symm.trans ha)
  refine ⟨ho', ?_⟩
  intro j _ hj
  rw [hget j (by omega)]
  have hlen : j < ((h.llog T).take (m + 1)).length := by
    have := hl.length_le
    rw [List.length_take]
    omega
  rw [(List.prefix_iff_getElem?.mp hp) j hlen, List.getElem_take,
    List.getElem?_eq_getElem]

theorem Clean.sorted (hc : h.Clean term base) (hs : h.Sound term base quorum) {T : Int}
    (ho : h.Origin base T) {i j : Nat} {a c : α} (hij : i ≤ j) (ha : (h.llog T)[i]? = some a)
    (hcj : (h.llog T)[j]? = some c) : term a ≤ term c := by
  obtain ⟨ho', hp⟩ := hc T ho j c hcj
  have hj : j < (h.llog T).length := (List.getElem?_eq_some_iff.mp hcj).1
  have hlen : i < ((h.llog T).take (j + 1)).length := by rw [List.length_take]; omega
  have hget := (List.prefix_iff_getElem?.mp hp) i hlen
  rw [List.getElem_take, ← List.getElem?_eq_getElem, ha] at hget
  rcases ho' with heq | hl
  · rw [heq] at hget
    rw [hs.base_log a (List.mem_of_getElem? hget), heq]
  · exact hs.le_term hl hget

end History

end ShardRaft.Lib
