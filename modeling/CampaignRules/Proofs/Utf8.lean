import CampaignRules.Utf8

/-! # Well-formed texts

The reader of UTF-8 is between two scalar values whenever it meets an ASCII byte, and it reads a
scalar value from its encoding. A repaired text is well-formed, and a repair leaves a well-formed
text as it is. -/

namespace CampaignRules.Utf8

namespace State

/-- The bounds on the next byte leave continuation bytes only. -/
def IsBounded : State → Prop
  | .start => True
  | .within _ low high => 0x80 ≤ low ∧ high ≤ 0xBF

theorem isBounded_of_lead {b : UInt8} {state : State} (hlead : lead b = some state) :
    state.IsBounded := by
  unfold lead at hlead
  repeat' split at hlead
  all_goals cases hlead
  all_goals simp [IsBounded]

theorem isBounded_of_step {b : UInt8} {state next : State} (hstep : state.step b = some next) :
    next.IsBounded := by
  unfold step at hstep
  split at hstep
  · exact isBounded_of_lead hstep
  · split at hstep
    · split at hstep
      all_goals cases hstep
      all_goals simp [IsBounded]
    · cases hstep

theorem step_of_ascii {b : UInt8} (hb : b < 0x80) : step b .start = some .start :=
  if_pos hb

/-- An ASCII byte stands between two scalar values. -/
theorem eq_start_of_ascii {b : UInt8} {state next : State} (hb : b < 0x80)
    (hstate : state.IsBounded) (hstep : state.step b = some next) : state = .start := by
  cases state with
  | start => rfl
  | within more low high =>
      have hlow : ¬low ≤ b := UInt8.not_le.2 (UInt8.lt_of_lt_of_le hb hstate.1)
      simp [step, hlow] at hstep

end State

theorem accepts_cons (state : State) (b : UInt8) (rest : Bytes) :
    accepts state (b :: rest) = (state.step b).any fun next => accepts next rest := by
  cases state with
  | start => rw [accepts]; cases State.step b .start <;> rfl
  | within more low high => rw [accepts]; cases State.step b (.within more low high) <;> rfl

theorem accepts_start_append {ascii : Bytes} (hascii : ∀ b ∈ ascii, b < 0x80) (rest : Bytes) :
    accepts .start (ascii ++ rest) = accepts .start rest := by
  induction ascii with
  | nil => rfl
  | cons b more ih =>
      rw [List.forall_mem_cons] at hascii
      rw [List.cons_append, accepts_cons, State.step_of_ascii hascii.1, Option.any_some,
        ih hascii.2]

/-- ASCII bytes are met between two scalar values only, and they leave the reader there. -/
theorem accepts_ascii_cons {state : State} {b : UInt8} {rest : Bytes} (hb : b < 0x80)
    (hstate : state.IsBounded) (haccepts : accepts state (b :: rest)) :
    state = .start ∧ accepts .start rest := by
  rw [accepts_cons, Option.any_eq_true] at haccepts
  obtain ⟨next, hstep, hrest⟩ := haccepts
  have hstart : state = .start := State.eq_start_of_ascii hb hstate hstep
  rw [hstart, State.step_of_ascii hb, Option.some.injEq] at hstep
  exact ⟨hstart, hstep ▸ hrest⟩

theorem accepts_append {state : State} {text : Bytes} (haccepts : accepts state text) (rest : Bytes) :
    accepts state (text ++ rest) = accepts .start rest := by
  induction text generalizing state with
  | nil =>
      cases state with
      | start => rfl
      | within more low high => cases haccepts
  | cons b more ih =>
      rw [accepts_cons, Option.any_eq_true] at haccepts
      obtain ⟨next, hstep, hmore⟩ := haccepts
      rw [List.cons_append, accepts_cons, hstep, Option.any_some, ih hmore]

theorem isValid_append {text rest : Bytes} (htext : isValid text) (hrest : isValid rest) :
    isValid (text ++ rest) :=
  (accepts_append htext rest).trans hrest

theorem isValid_of_ascii {text : Bytes} (hascii : ∀ b ∈ text, b < 0x80) : isValid text := by
  have haccepts := accepts_start_append hascii []
  rwa [List.append_nil] at haccepts

theorem accepts_within_zero {low high : UInt8} {n : Nat} (hn : n < 256)
    (hlow : low.toNat ≤ n) (hhigh : n ≤ high.toNat) (rest : Bytes) :
    accepts (.within 0 low high) (UInt8.ofNat n :: rest) = accepts .start rest := by
  have hbounds : low ≤ UInt8.ofNat n ∧ UInt8.ofNat n ≤ high := by
    simp only [UInt8.le_iff_toNat_le, UInt8.toNat_ofNat', Nat.mod_eq_of_lt hn]
    exact ⟨hlow, hhigh⟩
  simp [accepts_cons, State.step, hbounds]

theorem accepts_within_succ {more : Nat} {low high : UInt8} {n : Nat} (hn : n < 256)
    (hlow : low.toNat ≤ n) (hhigh : n ≤ high.toNat) (rest : Bytes) :
    accepts (.within (more + 1) low high) (UInt8.ofNat n :: rest) =
      accepts (.within more 0x80 0xBF) rest := by
  have hbounds : low ≤ UInt8.ofNat n ∧ UInt8.ofNat n ≤ high := by
    simp only [UInt8.le_iff_toNat_le, UInt8.toNat_ofNat', Nat.mod_eq_of_lt hn]
    exact ⟨hlow, hhigh⟩
  simp [accepts_cons, State.step, hbounds]

theorem lead_ofNat {n : Nat} (hn : n < 256) :
    State.lead (UInt8.ofNat n) =
      if n < 0x80 then some .start
      else if n < 0xC2 then none
      else if n < 0xE0 then some (.within 0 0x80 0xBF)
      else if n = 0xE0 then some (.within 1 0xA0 0xBF)
      else if n = 0xED then some (.within 1 0x80 0x9F)
      else if n < 0xF0 then some (.within 1 0x80 0xBF)
      else if n = 0xF0 then some (.within 2 0x90 0xBF)
      else if n < 0xF4 then some (.within 2 0x80 0xBF)
      else if n = 0xF4 then some (.within 2 0x80 0x8F)
      else none := by
  unfold State.lead
  simp [UInt8.lt_iff_toNat_lt, ← UInt8.toNat_inj, Nat.mod_eq_of_lt hn]

theorem accepts_start_cons {n : Nat} (rest : Bytes) {state : State}
    (hlead : State.lead (UInt8.ofNat n) = some state) :
    accepts .start (UInt8.ofNat n :: rest) = accepts state rest := by
  rw [accepts_cons, State.step, hlead, Option.any_some]

/-- A scalar value is read from its encoding. -/
theorem accepts_encode_append (c : Char) (rest : Bytes) :
    accepts .start (encode c ++ rest) = accepts .start rest := by
  have hvalid : c.val.toNat < 0xD800 ∨ 0xDFFF < c.val.toNat ∧ c.val.toNat < 0x110000 := c.valid
  unfold encode String.utf8EncodeChar
  generalize c.val.toNat = v at hvalid
  dsimp only
  split
  · have hlead : State.lead (UInt8.ofNat v) = some .start := by
      rw [lead_ofNat (by omega), if_pos (by omega)]
    exact accepts_start_cons rest hlead
  split
  · have hlead : State.lead (UInt8.ofNat (v / 64 % 32 + 192)) = some (.within 0 0x80 0xBF) := by
      rw [lead_ofNat (by omega), if_neg (by omega), if_neg (by omega), if_pos (by omega)]
    refine (accepts_start_cons _ hlead).trans ?_
    exact accepts_within_zero (by omega) (by simp) (by simp; omega) rest
  split
  · obtain ⟨low, high, hlead, hlow, hhigh⟩ : ∃ low high : UInt8,
        State.lead (UInt8.ofNat (v / 4096 % 16 + 224)) = some (.within 1 low high) ∧
          low.toNat ≤ v / 64 % 64 + 128 ∧ v / 64 % 64 + 128 ≤ high.toNat := by
      rw [lead_ofNat (by omega), if_neg (by omega), if_neg (by omega), if_neg (by omega)]
      split
      · exact ⟨_, _, rfl, by simp; omega, by simp; omega⟩
      · split
        · exact ⟨_, _, rfl, by simp, by simp; omega⟩
        · rw [if_pos (by omega)]
          exact ⟨_, _, rfl, by simp, by simp; omega⟩
    refine (accepts_start_cons _ hlead).trans ?_
    refine (accepts_within_succ (by omega) hlow hhigh _).trans ?_
    exact accepts_within_zero (by omega) (by simp) (by simp; omega) rest
  · obtain ⟨low, high, hlead, hlow, hhigh⟩ : ∃ low high : UInt8,
        State.lead (UInt8.ofNat (v / 262144 % 8 + 240)) = some (.within 2 low high) ∧
          low.toNat ≤ v / 4096 % 64 + 128 ∧ v / 4096 % 64 + 128 ≤ high.toNat := by
      rw [lead_ofNat (by omega), if_neg (by omega), if_neg (by omega), if_neg (by omega),
        if_neg (by omega), if_neg (by omega), if_neg (by omega)]
      split
      · exact ⟨_, _, rfl, by simp; omega, by simp; omega⟩
      · split
        · exact ⟨_, _, rfl, by simp, by simp; omega⟩
        · rw [if_pos (by omega)]
          exact ⟨_, _, rfl, by simp, by simp; omega⟩
    refine (accepts_start_cons _ hlead).trans ?_
    refine (accepts_within_succ (by omega) hlow hhigh _).trans ?_
    refine (accepts_within_succ (by omega) (by simp) (by simp; omega) _).trans ?_
    exact accepts_within_zero (by omega) (by simp) (by simp; omega) rest

theorem accepts_replacement (rest : Bytes) : accepts .start (replacement ++ rest) = accepts .start rest :=
  accepts_encode_append '\uFFFD' rest

/-- The bytes, in reverse, lead from between two scalar values to the state. -/
def LeadsTo (pending : Bytes) (state : State) : Prop :=
  ∀ rest, accepts .start (pending.reverse ++ rest) = accepts state rest

theorem LeadsTo.cons {pending : Bytes} {state next : State} {b : UInt8} (h : LeadsTo pending state)
    (hstep : state.step b = some next) : LeadsTo (b :: pending) next := by
  intro rest
  rw [List.reverse_cons, List.append_assoc, List.singleton_append, h, accepts_cons, hstep,
    Option.any_some]

theorem leadsTo_nil : LeadsTo [] .start := fun _ => rfl

/-- What a repair gives is well-formed: it is taken over whole scalar values at a time, and what it
is taken over for broken ones is one. -/
theorem accepts_repairFrom {state : State} {pending : Bytes} (text : Bytes)
    (h : LeadsTo pending state) : accepts .start (repairFrom state pending text) := by
  fun_induction repairFrom state pending text with
  | case1 => rfl
  | case2 => rfl
  | case3 _ _ _ rest hstep ih =>
      have hread := (h.cons hstep) (repairFrom .start [] rest)
      rw [List.reverse_cons, List.append_assoc, List.singleton_append] at hread
      rw [hread]
      exact ih leadsTo_nil
  | case4 _ _ _ _ _ _ hstep ih => exact ih (h.cons hstep)
  | case5 _ _ _ _ ih =>
      rw [accepts_replacement]
      exact ih leadsTo_nil
  | case6 _ _ _ _ _ _ hlead _ ih =>
      rw [accepts_replacement, accepts_cons, State.step, hlead, Option.any_some]
      exact ih leadsTo_nil
  | case7 _ _ _ _ _ _ _ _ hlead _ ih =>
      rw [accepts_replacement]
      exact ih (leadsTo_nil.cons hlead)
  | case8 _ _ _ _ _ _ _ _ ih =>
      rw [List.append_assoc, accepts_replacement, accepts_replacement]
      exact ih leadsTo_nil

theorem isValid_repair (text : Bytes) : isValid (repair text) :=
  accepts_repairFrom text leadsTo_nil

theorem repairFrom_of_accepts {state : State} {pending text : Bytes}
    (hpending : state = .start → pending = []) (haccepts : accepts state text) :
    repairFrom state pending text = pending.reverse ++ text := by
  fun_induction repairFrom state pending text with
  | case1 =>
      rw [hpending rfl]
      rfl
  | case2 => cases haccepts
  | case3 _ _ _ _ hstep ih =>
      rw [accepts_cons, hstep, Option.any_some] at haccepts
      rw [ih (fun _ => rfl) haccepts]
      rfl
  | case4 _ _ _ _ _ hnext hstep ih =>
      rw [accepts_cons, hstep, Option.any_some] at haccepts
      rw [ih (fun h => (hnext h).elim) haccepts, List.reverse_cons, List.append_assoc,
        List.singleton_append]
  | case5 _ _ _ hstep => simp [accepts_cons, hstep] at haccepts
  | case6 _ _ _ _ _ _ _ hstep => simp [accepts_cons, hstep] at haccepts
  | case7 _ _ _ _ _ _ _ _ _ hstep => simp [accepts_cons, hstep] at haccepts
  | case8 _ _ _ _ _ _ _ hstep => simp [accepts_cons, hstep] at haccepts

/-- There is nothing to repair in a well-formed text. -/
theorem repair_of_isValid {text : Bytes} (hvalid : isValid text) : repair text = text :=
  repairFrom_of_accepts (fun _ => rfl) hvalid

end CampaignRules.Utf8
