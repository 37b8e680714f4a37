/-!
Limits that come from where the compiler runs. Nothing else is known of them than what stands here.
-/

namespace TensorAsm

class Platform where
  /-- How deep lists and objects of a document may be nested. What is read can be gone through. -/
  depthLimit : Nat
  /-- The most dimensions that values can be given. -/
  rankLimit : Nat
  /-- Up to so many dimensions elements can be read one by one and shapes broadcast. -/
  axisLimit : Nat
  /-- Dimensions of this size and above are too great to be counted through, even if there is
  nothing to be counted. -/
  countLimit : Nat
  /-- From so many bits on there is no room for a power of two. -/
  powerRoom : Nat
  /-- From so many bits on there is no room for a value, which is worked with. -/
  valueRoom : Nat
  four_le_axisLimit : 4 ≤ axisLimit
  axisLimit_le_rankLimit : axisLimit ≤ rankLimit

instance Platform.installed : Platform where
  depthLimit := 985
  rankLimit := 64
  axisLimit := 32
  countLimit := 0x100000000
  powerRoom := 0x1000000000
  valueRoom := 0x100000000
  four_le_axisLimit := by decide
  axisLimit_le_rankLimit := by decide

end TensorAsm
