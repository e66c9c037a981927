import LinuxApi.Kernel.Credentials

/-! `user_setuserid` of `user_setuserid.c`: give up the privilege of a
set-user-ID program, take it back, and remove it. The last call passes -1 for the
saved id, so the privilege stays within reach whatever the three ids were. -/

namespace LinuxApi.SetUserId

/-- A user id printed with `%d`. -/
def printedId (u : Uid) : String := toString u.val.toInt32.toInt

/-- `errExit(msg)` on a failed call. -/
def orErrExit (msg : String) : Option Creds → Except String Creds
  | none => .error msg
  | some c => .ok c

/-- The ids after a normal return and the lines printed, or the text of `errExit`. -/
def userSetuserid (c : Creds) : Except String (Creds × List String) := do
  let euid : Int32 := c.effective.val.toInt32
  let c ← orErrExit "seteuid" (c.setresuid unchanged c.real.val unchanged)
  let change := "effective id after change = " ++ printedId c.effective ++ "\n"
  let c ← orErrExit "seteuid" (c.setresuid unchanged euid.toUInt32 unchanged)
  let recover := "effective id after recover = " ++ printedId c.effective ++ "\n"
  let c ← orErrExit "seteuid" (c.setresuid c.real.val c.real.val unchanged)
  let remove := "effective id after remove = " ++ printedId c.effective ++ "\n"
  return (c, [change, recover, remove])

/-- The final call sets the real and effective ids and keeps the saved one. -/
theorem setresuid_real_real (c : Creds) :
    c.setresuid c.real.val c.real.val unchanged = some { c with effective := c.real } := by
  simp only [Creds.setresuid, Uid.requested_unchanged, Uid.requested_val]
  rw [if_pos (.inr (by simp [Creds.ids]))]

/-- Every call succeeds; only the effective id ends up changed. -/
theorem userSetuserid_eq {c : Creds} (hs : c.saved = c.effective) :
    ∃ out, userSetuserid c = .ok ({ c with effective := c.real }, out) := by
  have hgive := Creds.setresuid_effective (c := c) (e := c.real) (.inr (by simp [Creds.ids]))
  have htake := Creds.setresuid_effective (c := { c with effective := c.real }) (e := c.effective)
    (.inr (by simp [Creds.ids, hs]))
  have hremove := setresuid_real_real { c with effective := c.effective }
  simp only [userSetuserid, hgive, orErrExit, Except.bind, bind, UInt32.toUInt32_toInt32, htake, hremove]
  exact ⟨_, rfl⟩

/-- The privilege is never removed for good: for every set-user-ID start the function
returns with the privileged id still saved. -/
theorem privilege_regainable (c : Creds) (hs : c.saved = c.effective) :
    ∃ d out, userSetuserid c = .ok (d, out) ∧ ¬ d.Dropped c.effective := by
  obtain ⟨out, h⟩ := userSetuserid_eq hs
  refine ⟨_, out, h, fun hd => ?_⟩
  exact (Creds.dropped_iff.mp hd).1 (by simp [Creds.ids, hs])

/-- A set-user-ID root program started by user 1000. -/
def setuidRoot : Creds := ⟨⟨1000, by decide⟩, .root, .root⟩

theorem privilege_regainable_root :
    ∃ d out, userSetuserid setuidRoot = .ok (d, out) ∧ ¬ d.Dropped setuidRoot.effective :=
  privilege_regainable setuidRoot rfl

/-- User 1000 gets the effective id 0 back with `setresuid(-1, 0, -1)`. -/
theorem not_dropped_root :
    ¬ ∀ c d out, c.saved = c.effective → c.effective ≠ c.real → c.real ≠ .root →
      userSetuserid c = .ok (d, out) → d.Dropped c.effective := by
  intro hall
  obtain ⟨out, h⟩ := userSetuserid_eq (c := setuidRoot) rfl
  exact hall setuidRoot _ out rfl (by decide) (by decide) h [(unchanged, Uid.root.val, unchanged)] rfl

end LinuxApi.SetUserId
