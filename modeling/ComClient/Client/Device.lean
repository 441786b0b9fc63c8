/-
  ComClient.Client.Device — which device `Serial::open_connection` opens when the path
  cannot be opened and the event devices are scanned for one of that name.

  The scan leaves its loop with the device open that has the name, and the line after the
  loop opens `dev_path` again, whether a device was found or not:

  - `opens_right_device_iff`: a call that returns has the path itself, or a device of that
    name and nothing else left open, if and only if the path could be opened, or the call
    did not get so far, or event39 could be opened only after the scan.
-/

import ComClient.Client.Open

namespace ComClient.Client

open ComClient.Transport

/-! ## What the lookup is for -/

/-- A call that returns has the path open, or an event device of that name, and nothing else;
    a call throws if there is neither. -/
structure RightDevice (k : Devices) (path : String) (o : Outcome) : Prop where
  opened : ∀ n, o.ended = .returned n → leftOpen o.effects = [o.client.fd] ∧
    ∃ before file, o.effects = before ++ [.opened o.client.fd file] ∧
      (file = .path ∨ ∃ i < 40, file = .event i ∧ k.eventName i = path)
  notFound : k.openPath = none → (∀ i < 40, k.eventName i ≠ path) → ∃ thrown, o.ended = .threw thrown

/-- Device `i` can be opened and has the name. -/
def Matches (k : Devices) (path : String) (i : Nat) : Prop := ∃ fd, k.openEvent i = some fd ∧ 0 < fd ∧ path = k.eventName i

/-- The device that the scan stops at: the first match, else the last device. -/
def StopsAt (k : Devices) (path : String) (i : Nat) : Prop :=
  i < 40 ∧ (∀ j < i, ¬ Matches k path j) ∧ (Matches k path i ∨ i = 39)

/-- The descriptor can be set up as a serial port. -/
structure Settable (k : Devices) (baud : Int) : Prop where
  get : k.tcgetattr = true
  rate : baud ∈ speeds
  set : k.tcsetattr = true

/-! ## The scan -/

theorem scan_match {k : Devices} {path : String} {i : Nat} (h : Matches k path i) (n : Nat) :
    (scan k path (n + 1) i).1 = i := by
  obtain ⟨fd, hopen, hfd, hname⟩ := h
  rw [scan, hopen]
  simp [hfd, hname]

theorem scan_no_match {k : Devices} {path : String} {i : Nat} (h : ¬ Matches k path i) (n : Nat) :
    (scan k path (n + 1) i).1 = (scan k path n (i + 1)).1 := by
  rw [scan]
  cases hopen : k.openEvent i with
  | none => rfl
  | some fd =>
    by_cases hfd : fd > 0
    · have hname : path ≠ k.eventName i := fun hname => h ⟨fd, hopen, hfd, hname⟩
      simp only [if_pos hfd, if_neg hname]
    · simp only [if_neg hfd]

theorem scan_stops (k : Devices) (path : String) (n i : Nat) :
    i ≤ (scan k path (n + 1) i).1 ∧ (scan k path (n + 1) i).1 ≤ i + n ∧
      (∀ j, i ≤ j → j < (scan k path (n + 1) i).1 → ¬ Matches k path j) ∧
      (Matches k path (scan k path (n + 1) i).1 ∨ (scan k path (n + 1) i).1 = i + n) := by
  induction n generalizing i with
  | zero =>
    -- one round left: the scan ends at `i`, with a match or without
    have hdevice : (scan k path 1 i).1 = i := by
      by_cases hmatch : Matches k path i
      · exact scan_match hmatch 0
      · rw [scan_no_match hmatch 0]
        rfl
    rw [Nat.zero_add, hdevice]
    refine ⟨Nat.le_refl i, Nat.le_refl i, ?_, Or.inr rfl⟩
    intro j h1 h2
    exact absurd h1 (Nat.not_le.mpr h2)
  | succ n ih =>
    obtain ⟨hle, hge, hbefore, hat⟩ := ih (i + 1)
    by_cases hmatch : Matches k path i
    · rw [scan_match hmatch (n + 1)]
      refine ⟨Nat.le_refl i, Nat.le_add_right i _, ?_, Or.inl hmatch⟩
      intro j h1 h2
      exact absurd h1 (Nat.not_le.mpr h2)
    · rw [scan_no_match hmatch (n + 1)]
      refine ⟨by omega, by omega, ?_, ?_⟩
      · intro j h1 h2
        by_cases hj : j = i
        · rw [hj]
          exact hmatch
        · exact hbefore j (by omega) h2
      · rcases hat with hat | hat
        · exact Or.inl hat
        · exact Or.inr (by omega)

theorem stopsAt_scan (k : Devices) (path : String) : StopsAt k path (scan k path 40 0).1 := by
  have h := scan_stops k path 39 0
  rw [show 39 + 1 = 40 from rfl] at h
  obtain ⟨-, hle, hbefore, hat⟩ := h
  refine ⟨by omega, fun j hj => hbefore j (Nat.zero_le j) hj, ?_⟩
  rcases hat with hat | hat
  · exact Or.inl hat
  · exact Or.inr (by omega)

theorem stopsAt_unique {k : Devices} {path : String} {i j : Nat} (hi : StopsAt k path i) (hj : StopsAt k path j) : i = j := by
  have hnot : ∀ {a b : Nat}, StopsAt k path a → StopsAt k path b → ¬ a < b := by
    intro a b ha hb hlt
    obtain ⟨-, -, hat⟩ := ha
    obtain ⟨hb40, hbefore, -⟩ := hb
    rcases hat with hmatch | rfl
    · exact hbefore a hlt hmatch
    · omega
  exact Nat.le_antisymm (Nat.le_of_not_lt (hnot hj hi)) (Nat.le_of_not_lt (hnot hi hj))

/-- Whether the device at which the scan stops can be opened again. -/
theorem reopen_none_iff (k : Devices) (path : String) :
    k.reopen (scan k path 40 0).1 = none ↔ ∀ i, StopsAt k path i → k.reopen i = none := by
  constructor
  · intro h i hi
    rw [stopsAt_unique hi (stopsAt_scan k path)]
    exact h
  · intro h
    exact h _ (stopsAt_scan k path)

/-! ## The call -/

section

variable {k : Devices} {path : String} {c : Client} {baud : Int} {fd : Nat}

theorem serial_ended (hfd : (findDevice k path).1 = some fd) :
    (Settable k baud → (Serial.openConnection k path baud c).ended = .returned fd) ∧
      (¬ Settable k baud → ∃ thrown, (Serial.openConnection k path baud c).ended = .threw thrown) := by
  unfold Serial.openConnection
  simp only [hfd]
  by_cases hget : k.tcgetattr = true
  · by_cases hrate : baud ∈ speeds
    · by_cases hset : k.tcsetattr = true
      · refine ⟨?_, fun h => absurd ⟨hget, hrate, hset⟩ h⟩
        intro _
        simp [hget, hrate, hset]
      · refine ⟨fun h => absurd h.set hset, ?_⟩
        intro _
        simp [hget, hrate, hset]
    · refine ⟨fun h => absurd h.rate hrate, ?_⟩
      intro _
      simp [hget, hrate]
  · refine ⟨fun h => absurd h.get hget, ?_⟩
    intro _
    simp [hget]

theorem rightDevice_of_threw {thrown : Thrown} (h : (Serial.openConnection k path baud c).ended = .threw thrown) :
    RightDevice k path (Serial.openConnection k path baud c) := by
  refine ⟨?_, fun _ _ => ⟨thrown, h⟩⟩
  intro n hn
  rw [h] at hn
  cases hn

theorem serial_fd (hfd : (findDevice k path).1 = some fd) : (Serial.openConnection k path baud c).client.fd = fd := by
  rw [(serial_open hfd baud).2]
  unfold Ended.members
  split <;> rfl

/-- The path itself. -/
theorem rightDevice_of_path (hpath : k.openPath = some fd) :
    RightDevice k path (Serial.openConnection k path baud c) := by
  have hfind : findDevice k path = (some fd, [.opened fd .path]) := by simp [findDevice, hpath]
  have hfd : (findDevice k path).1 = some fd := by rw [hfind]
  have heffects : (Serial.openConnection k path baud c).effects = [.opened fd .path] := by
    rw [(serial_open hfd baud).1, hfind]
  refine ⟨?_, ?_⟩
  · intro n _
    rw [heffects, serial_fd hfd]
    exact ⟨rfl, [], .path, rfl, Or.inl rfl⟩
  · intro hnone
    rw [hpath] at hnone
    cases hnone

/-- A device found by the scan and opened again: the scan must have kept nothing, so it cannot
    have found it. -/
theorem rightDevice_of_event (hpath : k.openPath = none) (hagain : k.reopen (scan k path 40 0).1 = some fd)
    (hset : Settable k baud) :
    RightDevice k path (Serial.openConnection k path baud c) ↔
      k.eventName 39 = path ∧ ∀ i < 40, KeepsNone k path i := by
  have hfind : findDevice k path = (some fd, (scan k path 40 0).2 ++ [.opened fd (.event (scan k path 40 0).1)]) := by
    simp [findDevice, hpath, hagain]
  have hfd : (findDevice k path).1 = some fd := by rw [hfind]
  have heffects : (Serial.openConnection k path baud c).effects =
      (scan k path 40 0).2 ++ [.opened fd (.event (scan k path 40 0).1)] := by
    rw [(serial_open hfd baud).1, hfind]
  have hended := (serial_ended (c := c) hfd).1 hset
  have hleft := scan_leftOpen_iff k path 40 0
  have hrounds : (∀ j, 0 ≤ j → j < 0 + 40 → KeepsNone k path j) ↔ ∀ i < 40, KeepsNone k path i := by
    simp
  constructor
  · intro h
    obtain ⟨hopen, before, file, heq, hfile⟩ := h.opened fd hended
    rw [heffects, leftOpen_append_opened, serial_fd hfd, List.cons_inj_right] at hopen
    rw [heffects, serial_fd hfd] at heq
    have hkeeps := hrounds.mp (hleft.mp hopen)
    have hlast : (scan k path 40 0).1 = 39 := scan_device_of_keeps_none (hrounds.mpr hkeeps)
    have hsame := List.singleton_inj.mp (List.append_inj' heq rfl).2
    rw [hlast] at hsame
    cases hsame
    refine ⟨?_, hkeeps⟩
    rcases hfile with hfile | ⟨i, -, hfile, hname⟩
    · cases hfile
    · cases hfile
      exact hname
  · rintro ⟨hname, hkeeps⟩
    have hlast : (scan k path 40 0).1 = 39 := scan_device_of_keeps_none (hrounds.mpr hkeeps)
    refine ⟨?_, ?_⟩
    · intro n _
      rw [heffects, serial_fd hfd, leftOpen_append_opened, hleft.mpr (hrounds.mpr hkeeps)]
      refine ⟨rfl, _, _, rfl, Or.inr ⟨39, by decide, ?_, hname⟩⟩
      rw [hlast]
    · intro _ hno
      exact absurd hname (hno 39 (by decide))

end

/-- The right device is opened, or the call throws, if and only if: the path could be opened;
    or the settings cannot be made; or the device at which the scan stops cannot be opened
    again; or every device that was opened in the scan has another name and a descriptor
    above 0, and event39 has the name (and so could not be opened in the scan). -/
theorem opens_right_device_iff (k : Devices) (path : String) (baud : Int) (c : Client) :
    RightDevice k path (Serial.openConnection k path baud c) ↔
      k.openPath ≠ none ∨ ¬ Settable k baud ∨ (∀ i, StopsAt k path i → k.reopen i = none) ∨
        (k.eventName 39 = path ∧ ∀ i < 40, KeepsNone k path i) := by
  cases hpath : k.openPath with
  | some fd => exact iff_of_true (rightDevice_of_path hpath) (Or.inl (by simp))
  | none =>
    rw [← reopen_none_iff]
    cases hagain : k.reopen (scan k path 40 0).1 with
    | none =>
      have hnone : (findDevice k path).1 = none := by simp [findDevice, hpath, hagain]
      have hthrew : (Serial.openConnection k path baud c).ended =
          .threw (.logError "Could not open the serial port.") := by
        rw [serial_open_no_device hnone]
      exact iff_of_true (rightDevice_of_threw hthrew) (Or.inr (Or.inr (Or.inl rfl)))
    | some fd =>
      by_cases hset : Settable k baud
      · rw [rightDevice_of_event hpath hagain hset]
        simp [hset]
      · have hfd : (findDevice k path).1 = some fd := by simp [findDevice, hpath, hagain]
        obtain ⟨thrown, hthrew⟩ := (serial_ended (c := c) hfd).2 hset
        exact iff_of_true (rightDevice_of_threw hthrew) (Or.inr (Or.inl hset))

/-- One event device, which opens as descriptor 3 and then as 4. -/
def gamepad : Devices where
  openPath := none
  openEvent i := if i = 0 then some 3 else none
  eventName i := if i = 0 then "Gamepad" else ""
  reopen i := if i = 0 then some 4 else none
  tcgetattr := true
  tcsetattr := true

/-- The device is found, opened again, and its first descriptor stays open. -/
theorem a_found_device_is_opened_twice :
    (Serial.openConnection gamepad "Gamepad" 9600 someClient).ended = .returned 4 ∧
      leftOpen (Serial.openConnection gamepad "Gamepad" 9600 someClient).effects = [4, 3] ∧
      ¬ RightDevice gamepad "Gamepad" (Serial.openConnection gamepad "Gamepad" 9600 someClient) := by
  have hended : (Serial.openConnection gamepad "Gamepad" 9600 someClient).ended = .returned 4 := by decide +kernel
  have hleft : leftOpen (Serial.openConnection gamepad "Gamepad" 9600 someClient).effects = [4, 3] := by decide +kernel
  refine ⟨hended, hleft, ?_⟩
  intro h
  obtain ⟨honly, -⟩ := h.opened 4 hended
  rw [hleft] at honly
  cases honly

end ComClient.Client
