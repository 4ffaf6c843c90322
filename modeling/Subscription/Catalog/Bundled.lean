import Subscription.Catalog.Basic

/-!
The catalog that comes with the program.
-/

namespace Subscription.Catalog

def onSeries (xenial bionic focal jammy noble : Bool) : List (Text × Bool) :=
  [("xenial", xenial), ("bionic", bionic), ("focal", focal), ("jammy", jammy), ("noble", noble)]

def ccEal : Service where
  name := "cc-eal"
  title := "CC EAL2"
  description := "Common Criteria EAL2 Provisioning Packages"
  helpText :=
    "Common Criteria is an internationally recognised framework for evaluating the" ++
    " security of IT products. This service provides the packages and configuration" ++
    " artifacts required to set up a host in its Common Criteria evaluated state."
  availability := onSeries true true false false false
  isBeta := false
  enableByDefault := false
  requiredServices := []
  rebootOnEnable := false
  containerSupported := true

def cis : Service where
  name := "cis"
  title := "CIS Audit"
  description := "Security compliance and audit tools"
  helpText :=
    "Provides tooling to audit a host against the CIS benchmark and to apply the" ++
    " hardening rules the benchmark recommends. Audit reports are written locally and" ++
    " can be used as evidence for compliance reviews."
  availability := onSeries true true true false false
  isBeta := false
  enableByDefault := false
  requiredServices := []
  rebootOnEnable := false
  containerSupported := true

def esmApps : Service where
  name := "esm-apps"
  title := "Ubuntu Pro: ESM Apps"
  description := "Expanded Security Maintenance for Applications"
  helpText :=
    "Expanded Security Maintenance for Applications delivers security updates for" ++
    " packages in the community-maintained part of the archive for the full support" ++
    " period of the release."
  availability := onSeries true true true true true
  isBeta := false
  enableByDefault := true
  requiredServices := []
  rebootOnEnable := false
  containerSupported := true

def esmInfra : Service where
  name := "esm-infra"
  title := "Ubuntu Pro: ESM Infra"
  description := "Expanded Security Maintenance for Infrastructure"
  helpText :=
    "Expanded Security Maintenance for Infrastructure provides security updates for" ++
    " the core packages of a release after its standard support window has ended." ++
    " Updates are delivered through an additional package repository that is" ++
    " configured when the service is enabled."
  availability := onSeries true true true true false
  isBeta := false
  enableByDefault := true
  requiredServices := []
  rebootOnEnable := false
  containerSupported := true

def fips : Service where
  name := "fips"
  title := "FIPS"
  description := "NIST-certified core packages"
  helpText :=
    "Installs FIPS 140 certified cryptographic modules and a kernel built to run" ++
    " them. Enabling this service replaces the running kernel, so a reboot is" ++
    " required before the certified modules are in use."
  availability := onSeries true true true false false
  isBeta := false
  enableByDefault := false
  requiredServices := []
  rebootOnEnable := true
  containerSupported := false

def fipsUpdates : Service where
  name := "fips-updates"
  title := "FIPS Updates"
  description := "NIST-certified core packages with priority security updates"
  helpText :=
    "Installs the FIPS cryptographic modules together with security fixes released" ++
    " after certification. The packages are not certified themselves but track the" ++
    " certified baseline. A reboot is required after enabling."
  availability := onSeries true true true true false
  isBeta := false
  enableByDefault := false
  requiredServices := []
  rebootOnEnable := true
  containerSupported := false

def livepatch : Service where
  name := "livepatch"
  title := "Livepatch"
  description := "Canonical Livepatch service"
  helpText :=
    "Applies critical kernel security fixes to the running kernel without a reboot." ++
    " Patches are downloaded and applied by a background daemon once the service is" ++
    " enabled."
  availability := onSeries true true true true true
  isBeta := false
  enableByDefault := true
  requiredServices := []
  rebootOnEnable := false
  containerSupported := false

def realtimeKernel : Service where
  name := "realtime-kernel"
  title := "Real-time kernel"
  description := "Kernel with PREEMPT_RT patches integrated"
  helpText :=
    "Replaces the running kernel with one built with the PREEMPT_RT patch set for" ++
    " deterministic scheduling latency. A reboot is required to boot into the new" ++
    " kernel."
  availability := onSeries false false false true false
  isBeta := true
  enableByDefault := false
  requiredServices := []
  rebootOnEnable := true
  containerSupported := false

def ros : Service where
  name := "ros"
  title := "ROS ESM Security Updates"
  description := "Security Updates for the Robot Operating System"
  helpText :=
    "Provides security updates for the Robot Operating System packages shipped for" ++
    " the release. Its packages depend on both ESM repositories, which must be" ++
    " enabled first."
  availability := onSeries true true true false false
  isBeta := false
  enableByDefault := false
  requiredServices := ["esm-apps", "esm-infra"]
  rebootOnEnable := false
  containerSupported := true

def rosUpdates : Service where
  name := "ros-updates"
  title := "ROS ESM All Updates"
  description := "All Updates for the Robot Operating System"
  helpText :=
    "Provides both security and non-security updates for the Robot Operating System" ++
    " packages. Requires the ROS security update service."
  availability := onSeries true true true false false
  isBeta := false
  enableByDefault := false
  requiredServices := ["esm-apps", "esm-infra", "ros"]
  rebootOnEnable := false
  containerSupported := true

def bundled : Catalog where
  services :=
    [ccEal, cis, esmApps, esmInfra, fips, fipsUpdates,
      livepatch, realtimeKernel, ros, rosUpdates]
  distinct := by decide

end Subscription.Catalog
