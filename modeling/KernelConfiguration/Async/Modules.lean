import Mathlib.Data.List.Basic

/-!
# The modules and what is known of them

The static data of the asynchronous initialisation: the enumeration `modules_e`
of every module that may register an initcall, the row of `init_info` each of
them has, and the name each of them is printed under.

A row is written in the source as a macro `x_nfo` of one to four arguments, and
the macros `get_nfo_1` to `get_nfo_4` fill the columns that are missing: a row
that names no group belongs to `grp_none`, and a row that names no parent has
the parent `none`. The rows below are the expansions, argument for argument, so
that a row of the source with an argument left out is a row with an argument
left out here too.

The group ids are ordinary members of the enumeration. Nothing in the source
separates them from the modules except their names, and
`KernelConfiguration.ModulesE.isGrp` is that convention.
-/

namespace KernelConfiguration

/-! ### The enumeration of modules -/

/-- **The ids a table entry may carry** (`modules_e`), in the order of the
source. The closing `module_last` is not an id of any entry. -/
inductive ModulesE where
  | none | grpNone | grpHid | grpDma | grpChar | grpUsb | grpSsb | grpSndHda | ssbModinit
  | intelCqmInit | amdIbsInit | ahciPciDriverInit | ahciDriverInit | genericDriverInit
  | cmediaDriverInit | realtekDriverInit | analogDriverInit | si3054DriverInit | cirrusDriverInit
  | sigmatelDriverInit | ca0110DriverInit | ca0132DriverInit | conexantDriverInit | viaDriverInit
  | hdmiDriverInit | fbmemInit | mdaConsoleInit | newportConsoleInit | sticonsoleInit | acpiAcInit
  | agpNvidiaInit | nvidiaFrontendInitModule | uvmInit | ioatInitModule | acpiVideoInit | agpInit
  | drmCoreInit | pchDmaDriverInit | ismtDriverInit | lpcSchDriverInit | lpcIchDriverInit
  | serial8250Init | nforce2DriverInit | cryptoXcbcModuleInit | forcedethPciDriverInit | initCifs
  | acpiPccDriver | acpiHedDriver | acpiSmbHcDriver | crbAcpiDriver | acpiSmbusCmiDriver
  | atlasAcpiDriver | smo8800Driver | lis3lv02dDriver | irstDriver | smartconnectDriver
  | pvpanicDriver | acpiTopstarDriver | toshibaBtRfkillDriver | toshibaHapsDriver | xo15EbookDriver
  | drmFbHelperModinit | acpiButtonDriverInit | acpiPowerMeterInit | synusbDriverInit
  | usblpDriverInit | rfcommInit | alsaTimerInit | alsaHwdepInit | alsaSeqDeviceInit
  | alsaMixerOssInit | sndHrtimerInit | alsaPcmInit | alsaSeqInit | alsaPcmOssInit
  | alsaSeqMidiEventInit | alsaSeqDummyInit | sndHdaController | patchSi3054Init | patchCa0132Init
  | patchHdmiInit | alsaSeqOssInit | sndHdaIntel | patchSigmatelInit | patchCirrusInit
  | patchCa0110Init | patchViaInit | patchRealtekInit | patchConexantInit | patchCmediaInit
  | patchAnalogInit | coretemp | gpioFan | acpiProcessorDriverInit | initMtd | ubiInit | uioInit
  | hilscherPciDriverInit | mxmWmiInit | speedstepInit | mmcBlkInit | uvcvideo | gspcaMain
  | irKbdDriver | i2cMuxGpioDriver | pca9541Driver | pca954xDriver | uhciHcdInit | usbmon
  | usbStorageDriverInit | ledDriverInit | uhidInit | hidInit | hidGenericInit | hidGeneric
  | cherryDriverInit | chiconyDriverInit | usbHidInit | appleDriverInit | a4DriverInit
  | ezDriverInit | cpDriverInit | ksDriverInit | msDriverInit | lgDriverInit | mrDriverInit
  | belkinDriverInit | plantronicsDriverInit | keytouchDriverInit | eneUb6250DriverInit
  | uasDriverInit | realtekCrDriverInit | ehciPciInit | libphy | smsc | lib80211Init
  | lib80211CryptoTkipInit | lib80211CryptoWepInit | lib80211CryptoCcmpInit | libipwInit | ledClass
  | hwrngModinit | prngModInit | ipw2100Init | ledsPca955x | b43 | b43legacyInit | intelRngModInit
  | afAlgInit | algifHashInit | algifSkcipherInit | algHash | lzoModInit | cryptoAuthencModuleInit
  | cryptoAuthencEsnModuleInit | cast5ModInit | cast6ModInit | blowfishModInit | zlibModInit
  | prgnModInit | cryptoCbcModuleInit | crc32ModInit | crc32cModInit | twofishModInit
  | wp512ModInit | crct10difModInit | cryptoNullModInit | cryptoEcbModuleInit | cryptoModuleInit
  | cryptoUserInit | lz4ModInit | md4ModInit | md5ModInit | rmd128ModInit | rmd160ModInit
  | rmd256ModInit | rmd320ModInit | sha1GenericModInit | sha256GenericModInit
  | sha512GenericModInit | eloDriverInit | ehciHcdInit | ohciPciInit | ohciPlatformInit
  | ohciHcdModInit | ehciPlatformInit | tcryptModInit | teaModInit | tgr192ModInit
  | pciePortdrvInit | initIso9660Fs | fuseInit | cuseInit | journalInit | initExt3Fs | initFatFs
  | initVfatFs | initMsdosFs | initNtfsFs | acpiIpmiInit | acpiPadInit | acpiBatteryInit
  | acpiSbsInit | acpiThermalInit | cpufreqGovDbsInit | cpufreqGovPowersaveInit | cpufreqStatsInit
  | cpufreqGovUserspaceInit | hpetInit | pciHotplugInit | pciedInit | shpcdInit | twofishGeneric
  | twofishI586 | asymmetricKeyInit | pkcs7KeyInit | x509KeyInit | aesInit | vmacModuleInit
  | mousedevInit | atkbdInit | uinputInit | psmouseInit | serportInit | b43Init | vb2ThreadInit
  | azxDriverInit | cryptoAlgapiInit | chainivModuleInit | pciePmeServiceInit | seqivModuleInit
  | eseqivModuleInit | cryptoCmacModuleInit | cryptoPcbcModuleInit | cryptoCtrModuleInit
  | cryptoGcmModuleInit | hmacModuleInit | cryptoCtsModuleInit | cryptoCcmModuleInit
  | desGenericModInit | fcryptModInit | serpentModInit | camelliaInit | arc4Init | khazadModInit
  | seedInit | anubisModInit | salsa20GenericModInit | krngModInit | michaelMicInit | ghashModInit
  | asyncPqInit | deflateModInit | brdInit | loopInit | tcpCongestionDefault | i2cHidDriverInit
  | smbalertDriverInit | pca9541DriverInit | pca954xDriverInit | pca955xDriverInit
  | irKbdDriverInit | i8042Init | serialPciDriverInit | spiGpioDriverInit | initPerZoneWmarkMin
  | init | procExecdomainsInit | kswapdInit | procModulesInit | fcntlInit | acpiFanDriverInit
  | cnProcInit | nvramInit | modInit | coretempInit | gpioFanDriverInit | i2cDevInit | i2cI801Init
  | smbusSchDriverInit | i2cMuxGpioDriverInit | intelIdleInit | simtecI2cDriverInit | evdevInit
  | gspcaInit | uvcInit | ptpPchInit | phyModuleInit | cmosInit | initSd | ptyInit | initSg
  | sbfInit | setupVmstat | extfragDebugInit | procFilesystemsInit | dioInit | initAutofs4Fs
  | configfsInit | initDevptsFs | ext4InitFs | initExt2Fs | initHugetlbfsFs | initNlsCp437
  | initNlsCp850 | initNlsCp852 | dnotifyInit | initNlsAscii | initNlsIso88591 | initNlsUtf8
  | inotifyUserSetup | procLocksInit | initUdfFs | initMbcache | procGenhdInit | noopInit
  | deadlineInit | cfqInit | initDnsResolver | sockDiagInit | cubictcpRegister | packetInit
  | slabProcInit | workingsetInit | hugetlbInit | procVmallocInit
  | ikconfigInit | pmcAtomInit | crcT10difModInit | libcrc32cModInit | percpuCounterStartup
  | alsaSoundLastInit | pcips2DriverInit | sermouseDrvInit | serioRawDrvInit | oprofileInit
  | addPcspkr | acpiSmbHcDriverInit | nforce2Init | sndCompressInit | pcspkrPlatformDriverInit
  | deinterlacePdrvInit
  deriving DecidableEq, Repr

/-- The ids that stand for a group of modules: the ones whose name starts with
`grp_`. -/
def ModulesE.isGrp : ModulesE → Bool
  | .grpNone | .grpHid | .grpDma | .grpChar | .grpUsb | .grpSsb | .grpSndHda => true
  | _ => false

/-! ### The rows of `init_info` -/

/-- When the initcall of a module is to run (`task_type_t`). -/
inductive TaskType where
  /-- By the thread that `async_init` starts. -/
  | asynchronized
  /-- By a client reading the device, at user initialisation time. -/
  | deferred
  /-- Not at all. -/
  | disable
  /-- `end`: no task, end of processing. -/
  | endTask
  /-- A task waiting for others. -/
  | waiting
  deriving DecidableEq, Repr

/-- **What is known of a module** (`init_fnc_info_4`): when its initcall runs,
the group it belongs to, and the modules or groups it has to come after. -/
structure InitFncInfo where
  /-- When the initcall runs. -/
  type : TaskType
  /-- The group of the module, `grp_none` if it has none. -/
  grpId : ModulesE
  /-- The first parent, `none` if there is none. -/
  parent1Id : ModulesE
  /-- The second parent, `none` if there is none. -/
  parent2Id : ModulesE
  deriving DecidableEq, Repr

/-- A row that gives the type only. -/
def getNfo1 (type : TaskType) : InitFncInfo := ⟨type, .grpNone, .none, .none⟩

/-- A row that gives the type and the group. -/
def getNfo2 (type : TaskType) (grp : ModulesE) : InitFncInfo := ⟨type, grp, .none, .none⟩

/-- A row that gives the type, the group and one parent. -/
def getNfo3 (type : TaskType) (grp p1 : ModulesE) : InitFncInfo := ⟨type, grp, p1, .none⟩

/-- A row that gives every column. -/
def getNfo4 (type : TaskType) (grp p1 p2 : ModulesE) : InitFncInfo := ⟨type, grp, p1, p2⟩

/-- **The table of module information** (`init_info`), one row per id. -/
def initInfo : ModulesE → InitFncInfo
  | .none => getNfo1 .disable
  | .grpNone => getNfo1 .disable
  | .grpHid => getNfo1 .disable
  | .grpDma => getNfo1 .disable
  | .grpChar => getNfo1 .disable
  | .grpUsb => getNfo1 .disable
  | .grpSsb => getNfo1 .disable
  | .grpSndHda => getNfo1 .disable
  | .ssbModinit => getNfo2 .deferred .grpSsb
  | .intelCqmInit => getNfo1 .disable
  | .amdIbsInit => getNfo1 .disable
  | .ahciPciDriverInit => getNfo1 .asynchronized
  | .ahciDriverInit => getNfo3 .asynchronized .grpNone .ahciPciDriverInit
  | .genericDriverInit => getNfo3 .deferred .grpNone .grpSndHda
  | .cmediaDriverInit => getNfo3 .deferred .grpNone .grpSndHda
  | .realtekDriverInit => getNfo3 .deferred .grpNone .grpSndHda
  | .analogDriverInit => getNfo3 .deferred .grpNone .grpSndHda
  | .si3054DriverInit => getNfo3 .deferred .grpNone .grpSndHda
  | .cirrusDriverInit => getNfo3 .deferred .grpNone .grpSndHda
  | .sigmatelDriverInit => getNfo3 .deferred .grpNone .grpSndHda
  | .ca0110DriverInit => getNfo3 .deferred .grpNone .grpSndHda
  | .ca0132DriverInit => getNfo3 .deferred .grpNone .grpSndHda
  | .conexantDriverInit => getNfo3 .deferred .grpNone .grpSndHda
  | .viaDriverInit => getNfo3 .deferred .grpNone .grpSndHda
  | .hdmiDriverInit => getNfo3 .deferred .grpNone .grpSndHda
  | .fbmemInit => getNfo1 .asynchronized
  | .mdaConsoleInit => getNfo3 .asynchronized .grpNone .fbmemInit
  | .newportConsoleInit => getNfo3 .asynchronized .grpNone .fbmemInit
  | .sticonsoleInit => getNfo3 .asynchronized .grpNone .fbmemInit
  | .acpiAcInit => getNfo1 .asynchronized
  | .agpNvidiaInit => getNfo3 .asynchronized .grpNone .agpInit
  | .nvidiaFrontendInitModule => getNfo3 .asynchronized .grpNone .drmCoreInit
  | .uvmInit => getNfo3 .asynchronized .grpNone .nvidiaFrontendInitModule
  | .ioatInitModule => getNfo2 .asynchronized .grpDma
  | .acpiVideoInit => getNfo1 .asynchronized
  | .agpInit => getNfo4 .asynchronized .grpNone .ioatInitModule .acpiVideoInit
  | .drmCoreInit => getNfo3 .asynchronized .grpNone .agpInit
  | .pchDmaDriverInit => getNfo1 .asynchronized
  | .ismtDriverInit => getNfo1 .deferred
  | .lpcSchDriverInit => getNfo1 .deferred
  | .lpcIchDriverInit => getNfo1 .deferred
  | .serial8250Init => getNfo1 .deferred
  | .nforce2DriverInit => getNfo1 .deferred
  | .cryptoXcbcModuleInit => getNfo1 .deferred
  | .forcedethPciDriverInit => getNfo1 .deferred
  | .initCifs => getNfo1 .deferred
  | .acpiPccDriver => getNfo3 .deferred .grpNone .acpiAcInit
  | .acpiHedDriver => getNfo1 .deferred
  | .acpiSmbHcDriver => getNfo3 .deferred .grpNone .acpiAcInit
  | .crbAcpiDriver => getNfo3 .deferred .grpNone .acpiAcInit
  | .acpiSmbusCmiDriver => getNfo1 .deferred
  | .atlasAcpiDriver => getNfo3 .deferred .grpNone .acpiAcInit
  | .smo8800Driver => getNfo3 .deferred .grpNone .acpiAcInit
  | .lis3lv02dDriver => getNfo3 .deferred .grpNone .acpiAcInit
  | .irstDriver => getNfo3 .deferred .grpNone .acpiAcInit
  | .smartconnectDriver => getNfo3 .deferred .grpNone .acpiAcInit
  | .pvpanicDriver => getNfo3 .deferred .grpNone .acpiAcInit
  | .acpiTopstarDriver => getNfo3 .deferred .grpNone .acpiAcInit
  | .toshibaBtRfkillDriver => getNfo3 .deferred .grpNone .acpiAcInit
  | .toshibaHapsDriver => getNfo3 .deferred .grpNone .acpiAcInit
  | .xo15EbookDriver => getNfo3 .deferred .grpNone .acpiAcInit
  | .drmFbHelperModinit => getNfo1 .deferred
  | .acpiButtonDriverInit => getNfo1 .deferred
  | .acpiPowerMeterInit => getNfo1 .deferred
  | .synusbDriverInit => getNfo1 .deferred
  | .usblpDriverInit => getNfo1 .deferred
  | .rfcommInit => getNfo1 .deferred
  | .alsaTimerInit => getNfo1 .deferred
  | .alsaHwdepInit => getNfo1 .deferred
  | .alsaSeqDeviceInit => getNfo1 .deferred
  | .alsaMixerOssInit => getNfo1 .deferred
  | .sndHrtimerInit => getNfo3 .deferred .grpNone .alsaTimerInit
  | .alsaPcmInit => getNfo3 .deferred .grpNone .alsaTimerInit
  | .alsaSeqInit => getNfo4 .deferred .grpNone .alsaSeqDeviceInit .alsaTimerInit
  | .alsaPcmOssInit => getNfo4 .deferred .grpNone .alsaMixerOssInit .alsaPcmInit
  | .alsaSeqMidiEventInit => getNfo3 .deferred .grpNone .alsaSeqInit
  | .alsaSeqDummyInit => getNfo3 .deferred .grpNone .alsaSeqInit
  | .sndHdaController => getNfo1 .deferred
  | .patchSi3054Init => getNfo1 .deferred
  | .patchCa0132Init => getNfo1 .deferred
  | .patchHdmiInit => getNfo1 .deferred
  | .alsaSeqOssInit => getNfo3 .deferred .grpNone .alsaSeqMidiEventInit
  | .sndHdaIntel => getNfo3 .deferred .grpNone .sndHdaController
  | .patchSigmatelInit => getNfo1 .deferred
  | .patchCirrusInit => getNfo1 .deferred
  | .patchCa0110Init => getNfo1 .deferred
  | .patchViaInit => getNfo1 .deferred
  | .patchRealtekInit => getNfo1 .deferred
  | .patchConexantInit => getNfo1 .deferred
  | .patchCmediaInit => getNfo1 .deferred
  | .patchAnalogInit => getNfo1 .deferred
  | .coretemp => getNfo1 .deferred
  | .gpioFan => getNfo1 .deferred
  | .acpiProcessorDriverInit => getNfo1 .deferred
  | .initMtd => getNfo1 .deferred
  | .ubiInit => getNfo3 .deferred .grpNone .initMtd
  | .uioInit => getNfo1 .deferred
  | .hilscherPciDriverInit => getNfo3 .deferred .grpNone .uioInit
  | .mxmWmiInit => getNfo1 .deferred
  | .speedstepInit => getNfo1 .deferred
  | .mmcBlkInit => getNfo1 .deferred
  | .uvcvideo => getNfo1 .deferred
  | .gspcaMain => getNfo1 .deferred
  | .irKbdDriver => getNfo1 .deferred
  | .i2cMuxGpioDriver => getNfo1 .deferred
  | .pca9541Driver => getNfo1 .deferred
  | .pca954xDriver => getNfo1 .deferred
  | .uhciHcdInit => getNfo3 .deferred .grpNone .ehciHcdInit
  | .usbmon => getNfo1 .deferred
  | .usbStorageDriverInit => getNfo1 .deferred
  | .ledDriverInit => getNfo1 .deferred
  | .uhidInit => getNfo3 .deferred .grpNone .ohciPlatformInit
  | .hidInit => getNfo3 .deferred .grpNone .ohciPlatformInit
  | .hidGenericInit => getNfo4 .deferred .grpNone .hidInit .uhidInit
  | .hidGeneric => getNfo4 .deferred .grpNone .hidInit .uhidInit
  | .cherryDriverInit => getNfo4 .deferred .grpNone .hidInit .uhidInit
  | .chiconyDriverInit => getNfo4 .deferred .grpNone .hidInit .uhidInit
  | .usbHidInit => getNfo1 .deferred
  | .appleDriverInit => getNfo4 .deferred .grpNone .hidInit .uhidInit
  | .a4DriverInit => getNfo4 .deferred .grpNone .hidInit .uhidInit
  | .ezDriverInit => getNfo4 .deferred .grpNone .hidInit .uhidInit
  | .cpDriverInit => getNfo4 .deferred .grpNone .hidInit .uhidInit
  | .ksDriverInit => getNfo4 .deferred .grpNone .hidInit .uhidInit
  | .msDriverInit => getNfo4 .deferred .grpNone .hidInit .uhidInit
  | .lgDriverInit => getNfo4 .deferred .grpNone .hidInit .uhidInit
  | .mrDriverInit => getNfo4 .deferred .grpNone .hidInit .uhidInit
  | .belkinDriverInit => getNfo4 .deferred .grpNone .hidInit .uhidInit
  | .plantronicsDriverInit => getNfo4 .deferred .grpNone .hidInit .uhidInit
  | .keytouchDriverInit => getNfo4 .deferred .grpNone .hidInit .uhidInit
  | .eneUb6250DriverInit => getNfo3 .deferred .grpNone .usbStorageDriverInit
  | .uasDriverInit => getNfo3 .deferred .grpNone .usbStorageDriverInit
  | .realtekCrDriverInit => getNfo3 .deferred .grpNone .usbStorageDriverInit
  | .ehciPciInit => getNfo3 .deferred .grpNone .ehciHcdInit
  | .libphy => getNfo1 .deferred
  | .smsc => getNfo3 .deferred .grpNone .libphy
  | .lib80211Init => getNfo1 .deferred
  | .lib80211CryptoTkipInit => getNfo3 .deferred .grpNone .lib80211Init
  | .lib80211CryptoWepInit => getNfo3 .deferred .grpNone .lib80211Init
  | .lib80211CryptoCcmpInit => getNfo3 .deferred .grpNone .lib80211Init
  | .libipwInit => getNfo3 .deferred .grpNone .lib80211Init
  | .ledClass => getNfo1 .deferred
  | .hwrngModinit => getNfo1 .deferred
  | .prngModInit => getNfo1 .deferred
  | .ipw2100Init => getNfo3 .deferred .grpNone .lib80211Init
  | .ledsPca955x => getNfo1 .deferred
  | .b43 => getNfo4 .deferred .grpNone .grpSsb .hwrngModinit
  | .b43legacyInit => getNfo4 .deferred .grpNone .grpSsb .hwrngModinit
  | .intelRngModInit => getNfo3 .deferred .grpNone .hwrngModinit
  | .afAlgInit => getNfo1 .deferred
  | .algifHashInit => getNfo3 .deferred .grpNone .afAlgInit
  | .algifSkcipherInit => getNfo3 .deferred .grpNone .afAlgInit
  | .algHash => getNfo1 .deferred
  | .lzoModInit => getNfo1 .deferred
  | .cryptoAuthencModuleInit => getNfo1 .deferred
  | .cryptoAuthencEsnModuleInit => getNfo3 .deferred .grpNone .cryptoAuthencModuleInit
  | .cast5ModInit => getNfo1 .deferred
  | .cast6ModInit => getNfo1 .deferred
  | .blowfishModInit => getNfo1 .deferred
  | .zlibModInit => getNfo1 .deferred
  | .prgnModInit => getNfo1 .deferred
  | .cryptoCbcModuleInit => getNfo1 .deferred
  | .crc32ModInit => getNfo1 .deferred
  | .crc32cModInit => getNfo1 .deferred
  | .twofishModInit => getNfo1 .deferred
  | .wp512ModInit => getNfo1 .deferred
  | .crct10difModInit => getNfo1 .deferred
  | .cryptoNullModInit => getNfo1 .deferred
  | .cryptoEcbModuleInit => getNfo1 .deferred
  | .cryptoModuleInit => getNfo1 .deferred
  | .cryptoUserInit => getNfo1 .deferred
  | .lz4ModInit => getNfo1 .deferred
  | .md4ModInit => getNfo1 .deferred
  | .md5ModInit => getNfo1 .deferred
  | .rmd128ModInit => getNfo1 .deferred
  | .rmd160ModInit => getNfo1 .deferred
  | .rmd256ModInit => getNfo1 .deferred
  | .rmd320ModInit => getNfo1 .deferred
  | .sha1GenericModInit => getNfo1 .deferred
  | .sha256GenericModInit => getNfo1 .deferred
  | .sha512GenericModInit => getNfo1 .deferred
  | .eloDriverInit => getNfo1 .deferred
  | .ehciHcdInit => getNfo1 .deferred
  | .ohciPciInit => getNfo3 .deferred .ohciHcdModInit .ehciHcdInit
  | .ohciPlatformInit => getNfo2 .deferred .ohciHcdModInit
  | .ohciHcdModInit => getNfo2 .deferred .ehciPlatformInit
  | .ehciPlatformInit => getNfo3 .deferred .grpNone .ehciHcdInit
  | .tcryptModInit => getNfo1 .deferred
  | .teaModInit => getNfo1 .deferred
  | .tgr192ModInit => getNfo1 .deferred
  | .pciePortdrvInit => getNfo1 .deferred
  | .initIso9660Fs => getNfo1 .deferred
  | .fuseInit => getNfo1 .deferred
  | .cuseInit => getNfo3 .deferred .grpNone .fuseInit
  | .journalInit => getNfo1 .deferred
  | .initExt3Fs => getNfo3 .deferred .grpNone .journalInit
  | .initFatFs => getNfo1 .deferred
  | .initVfatFs => getNfo3 .deferred .grpNone .initFatFs
  | .initMsdosFs => getNfo3 .deferred .grpNone .initFatFs
  | .initNtfsFs => getNfo1 .deferred
  | .acpiIpmiInit => getNfo1 .deferred
  | .acpiPadInit => getNfo1 .deferred
  | .acpiBatteryInit => getNfo1 .deferred
  | .acpiSbsInit => getNfo1 .deferred
  | .acpiThermalInit => getNfo1 .deferred
  | .cpufreqGovDbsInit => getNfo1 .deferred
  | .cpufreqGovPowersaveInit => getNfo1 .deferred
  | .cpufreqStatsInit => getNfo1 .deferred
  | .cpufreqGovUserspaceInit => getNfo1 .deferred
  | .hpetInit => getNfo1 .deferred
  | .pciHotplugInit => getNfo3 .deferred .grpNone .pciePortdrvInit
  | .pciedInit => getNfo3 .deferred .grpNone .pciHotplugInit
  | .shpcdInit => getNfo3 .deferred .grpNone .pciedInit
  | .twofishGeneric => getNfo1 .deferred
  | .twofishI586 => getNfo1 .deferred
  | .asymmetricKeyInit => getNfo1 .deferred
  | .pkcs7KeyInit => getNfo1 .deferred
  | .x509KeyInit => getNfo1 .deferred
  | .aesInit => getNfo1 .deferred
  | .vmacModuleInit => getNfo1 .deferred
  | .mousedevInit => getNfo1 .deferred
  | .atkbdInit => getNfo1 .deferred
  | .uinputInit => getNfo1 .deferred
  | .psmouseInit => getNfo1 .deferred
  | .serportInit => getNfo1 .deferred
  | .b43Init => getNfo3 .deferred .grpNone .grpSsb
  | .vb2ThreadInit => getNfo1 .deferred
  | .azxDriverInit => getNfo1 .deferred
  | .cryptoAlgapiInit => getNfo1 .deferred
  | .chainivModuleInit => getNfo1 .deferred
  | .pciePmeServiceInit => getNfo1 .deferred
  | .seqivModuleInit => getNfo1 .deferred
  | .eseqivModuleInit => getNfo1 .deferred
  | .cryptoCmacModuleInit => getNfo1 .deferred
  | .cryptoPcbcModuleInit => getNfo1 .deferred
  | .cryptoCtrModuleInit => getNfo1 .deferred
  | .cryptoGcmModuleInit => getNfo1 .deferred
  | .hmacModuleInit => getNfo1 .deferred
  | .cryptoCtsModuleInit => getNfo1 .deferred
  | .cryptoCcmModuleInit => getNfo1 .deferred
  | .desGenericModInit => getNfo1 .deferred
  | .fcryptModInit => getNfo1 .deferred
  | .serpentModInit => getNfo1 .deferred
  | .camelliaInit => getNfo1 .deferred
  | .arc4Init => getNfo1 .deferred
  | .khazadModInit => getNfo1 .deferred
  | .seedInit => getNfo1 .deferred
  | .anubisModInit => getNfo1 .deferred
  | .salsa20GenericModInit => getNfo1 .deferred
  | .krngModInit => getNfo1 .deferred
  | .michaelMicInit => getNfo1 .deferred
  | .ghashModInit => getNfo1 .deferred
  | .asyncPqInit => getNfo1 .deferred
  | .deflateModInit => getNfo1 .deferred
  | .brdInit => getNfo1 .deferred
  | .loopInit => getNfo1 .deferred
  | .tcpCongestionDefault => getNfo1 .deferred
  | .i2cHidDriverInit => getNfo1 .deferred
  | .smbalertDriverInit => getNfo1 .deferred
  | .pca9541DriverInit => getNfo1 .deferred
  | .pca954xDriverInit => getNfo1 .deferred
  | .pca955xDriverInit => getNfo1 .deferred
  | .irKbdDriverInit => getNfo1 .deferred
  | .i8042Init => getNfo1 .deferred
  | .serialPciDriverInit => getNfo1 .deferred
  | .spiGpioDriverInit => getNfo1 .deferred
  | .initPerZoneWmarkMin => getNfo1 .asynchronized
  | .init => getNfo1 .asynchronized
  | .procExecdomainsInit => getNfo1 .asynchronized
  | .kswapdInit => getNfo1 .asynchronized
  | .procModulesInit => getNfo1 .asynchronized
  | .fcntlInit => getNfo1 .asynchronized
  | .acpiFanDriverInit => getNfo1 .deferred
  | .cnProcInit => getNfo1 .asynchronized
  | .nvramInit => getNfo3 .asynchronized .grpNone .ptyInit
  | .modInit => getNfo1 .deferred
  | .coretempInit => getNfo1 .asynchronized
  | .gpioFanDriverInit => getNfo1 .deferred
  | .i2cDevInit => getNfo1 .asynchronized
  | .i2cI801Init => getNfo1 .asynchronized
  | .smbusSchDriverInit => getNfo1 .deferred
  | .i2cMuxGpioDriverInit => getNfo1 .asynchronized
  | .intelIdleInit => getNfo1 .asynchronized
  | .simtecI2cDriverInit => getNfo1 .deferred
  | .evdevInit => getNfo1 .asynchronized
  | .gspcaInit => getNfo1 .deferred
  | .uvcInit => getNfo1 .deferred
  | .ptpPchInit => getNfo1 .asynchronized
  | .phyModuleInit => getNfo1 .asynchronized
  | .cmosInit => getNfo1 .deferred
  | .initSd => getNfo1 .asynchronized
  | .ptyInit => getNfo1 .asynchronized
  | .initSg => getNfo1 .asynchronized
  | .sbfInit => getNfo1 .asynchronized
  | .setupVmstat => getNfo1 .asynchronized
  | .extfragDebugInit => getNfo1 .asynchronized
  | .procFilesystemsInit => getNfo1 .asynchronized
  | .dioInit => getNfo1 .asynchronized
  | .initAutofs4Fs => getNfo1 .deferred
  | .configfsInit => getNfo1 .asynchronized
  | .initDevptsFs => getNfo1 .asynchronized
  | .ext4InitFs => getNfo3 .asynchronized .grpNone .initHugetlbfsFs
  | .initExt2Fs => getNfo1 .deferred
  | .initHugetlbfsFs => getNfo1 .asynchronized
  | .initNlsCp437 => getNfo1 .asynchronized
  | .initNlsCp850 => getNfo1 .asynchronized
  | .initNlsCp852 => getNfo1 .asynchronized
  | .dnotifyInit => getNfo1 .asynchronized
  | .initNlsAscii => getNfo1 .asynchronized
  | .initNlsIso88591 => getNfo1 .asynchronized
  | .initNlsUtf8 => getNfo1 .asynchronized
  | .inotifyUserSetup => getNfo1 .asynchronized
  | .procLocksInit => getNfo1 .asynchronized
  | .initUdfFs => getNfo1 .deferred
  | .initMbcache => getNfo1 .asynchronized
  | .procGenhdInit => getNfo1 .asynchronized
  | .noopInit => getNfo1 .deferred
  | .deadlineInit => getNfo1 .asynchronized
  | .cfqInit => getNfo1 .deferred
  | .initDnsResolver => getNfo1 .deferred
  | .sockDiagInit => getNfo1 .asynchronized
  | .cubictcpRegister => getNfo1 .asynchronized
  | .packetInit => getNfo1 .deferred
  | .slabProcInit => getNfo1 .asynchronized
  | .workingsetInit => getNfo1 .asynchronized
  | .hugetlbInit => getNfo1 .asynchronized
  | .procVmallocInit => getNfo1 .asynchronized
  | .ikconfigInit => getNfo1 .asynchronized
  | .pmcAtomInit => getNfo1 .disable
  | .crcT10difModInit => getNfo1 .asynchronized
  | .libcrc32cModInit => getNfo1 .asynchronized
  | .percpuCounterStartup => getNfo1 .asynchronized
  | .alsaSoundLastInit => getNfo1 .disable
  | .pcips2DriverInit => getNfo1 .deferred
  | .sermouseDrvInit => getNfo1 .deferred
  | .serioRawDrvInit => getNfo1 .deferred
  | .oprofileInit => getNfo1 .deferred
  | .addPcspkr => getNfo1 .deferred
  | .acpiSmbHcDriverInit => getNfo1 .deferred
  | .nforce2Init => getNfo1 .deferred
  | .sndCompressInit => getNfo1 .deferred
  | .pcspkrPlatformDriverInit => getNfo1 .deferred
  | .deinterlacePdrvInit => getNfo1 .deferred

/-- No row uses the two types that neither loop of the source selects besides
`disable`. -/
theorem initInfo_type (id : ModulesE) :
    (initInfo id).type = .asynchronized ∨ (initInfo id).type = .deferred ∨
      (initInfo id).type = .disable := by
  cases id <;> decide

/-- The parents of an asynchronized module are modules, not groups. -/
theorem initInfo_parents_not_grp (id : ModulesE) (h : (initInfo id).type = .asynchronized) :
    (initInfo id).parent1Id.isGrp = false ∧ (initInfo id).parent2Id.isGrp = false := by
  revert h
  cases id <;> decide

/-- The parents of an asynchronized module are never deferred. -/
theorem initInfo_parents_not_deferred (id : ModulesE)
    (h : (initInfo id).type = .asynchronized) :
    (initInfo (initInfo id).parent1Id).type ≠ .deferred ∧
      (initInfo (initInfo id).parent2Id).type ≠ .deferred := by
  revert h
  cases id <;> decide

/-- The group column of a row holds a group, except in the three rows that lack an
argument. -/
theorem initInfo_grpId (id : ModulesE) :
    (initInfo id).grpId.isGrp = true ∨
      (id = .ohciHcdModInit ∧ (initInfo id).grpId = .ehciPlatformInit) ∨
      ((id = .ohciPciInit ∨ id = .ohciPlatformInit) ∧ (initInfo id).grpId = .ohciHcdModInit) := by
  cases id <;> decide

/-! ### The names the modules are printed under -/

/-- **The name of a module** (`getName`): the identifier its initcall has in the
kernel source. The guard against ids from `module_last` on has nothing to do
here, since the enumeration has none. -/
def getName : ModulesE → String
  | .none => "none"
  | .grpNone => "grp_none"
  | .grpHid => "grp_hid"
  | .grpDma => "grp_dma"
  | .grpChar => "grp_char"
  | .grpUsb => "grp_usb"
  | .grpSsb => "grp_ssb"
  | .grpSndHda => "grp_snd_hda"
  | .ssbModinit => "ssb_modinit"
  | .intelCqmInit => "intel_cqm_init"
  | .amdIbsInit => "amd_ibs_init"
  | .ahciPciDriverInit => "ahci_pci_driver_init"
  | .ahciDriverInit => "ahci_driver_init"
  | .genericDriverInit => "generic_driver_init"
  | .cmediaDriverInit => "cmedia_driver_init"
  | .realtekDriverInit => "realtek_driver_init"
  | .analogDriverInit => "analog_driver_init"
  | .si3054DriverInit => "si3054_driver_init"
  | .cirrusDriverInit => "cirrus_driver_init"
  | .sigmatelDriverInit => "sigmatel_driver_init"
  | .ca0110DriverInit => "ca0110_driver_init"
  | .ca0132DriverInit => "ca0132_driver_init"
  | .conexantDriverInit => "conexant_driver_init"
  | .viaDriverInit => "via_driver_init"
  | .hdmiDriverInit => "hdmi_driver_init"
  | .fbmemInit => "fbmem_init"
  | .mdaConsoleInit => "mda_console_init"
  | .newportConsoleInit => "newport_console_init"
  | .sticonsoleInit => "sticonsole_init"
  | .acpiAcInit => "acpi_ac_init"
  | .agpNvidiaInit => "agp_nvidia_init"
  | .nvidiaFrontendInitModule => "nvidia_frontend_init_module"
  | .uvmInit => "uvm_init"
  | .ioatInitModule => "ioat_init_module"
  | .acpiVideoInit => "acpi_video_init"
  | .agpInit => "agp_init"
  | .drmCoreInit => "drm_core_init"
  | .pchDmaDriverInit => "pch_dma_driver_init"
  | .ismtDriverInit => "ismt_driver_init"
  | .lpcSchDriverInit => "lpc_sch_driver_init"
  | .lpcIchDriverInit => "lpc_ich_driver_init"
  | .serial8250Init => "serial8250_init"
  | .nforce2DriverInit => "nforce2_driver_init"
  | .cryptoXcbcModuleInit => "crypto_xcbc_module_init"
  | .forcedethPciDriverInit => "forcedeth_pci_driver_init"
  | .initCifs => "init_cifs"
  | .acpiPccDriver => "acpi_pcc_driver"
  | .acpiHedDriver => "acpi_hed_driver"
  | .acpiSmbHcDriver => "acpi_smb_hc_driver"
  | .crbAcpiDriver => "crb_acpi_driver"
  | .acpiSmbusCmiDriver => "acpi_smbus_cmi_driver"
  | .atlasAcpiDriver => "atlas_acpi_driver"
  | .smo8800Driver => "smo8800_driver"
  | .lis3lv02dDriver => "lis3lv02d_driver"
  | .irstDriver => "irst_driver"
  | .smartconnectDriver => "smartconnect_driver"
  | .pvpanicDriver => "pvpanic_driver"
  | .acpiTopstarDriver => "acpi_topstar_driver"
  | .toshibaBtRfkillDriver => "toshiba_bt_rfkill_driver"
  | .toshibaHapsDriver => "toshiba_haps_driver"
  | .xo15EbookDriver => "xo15_ebook_driver"
  | .drmFbHelperModinit => "drm_fb_helper_modinit"
  | .acpiButtonDriverInit => "acpi_button_driver_init"
  | .acpiPowerMeterInit => "acpi_power_meter_init"
  | .synusbDriverInit => "synusb_driver_init"
  | .usblpDriverInit => "usblp_driver_init"
  | .rfcommInit => "rfcomm_init"
  | .alsaTimerInit => "alsa_timer_init"
  | .alsaHwdepInit => "alsa_hwdep_init"
  | .alsaSeqDeviceInit => "alsa_seq_device_init"
  | .alsaMixerOssInit => "alsa_mixer_oss_init"
  | .sndHrtimerInit => "snd_hrtimer_init"
  | .alsaPcmInit => "alsa_pcm_init"
  | .alsaSeqInit => "alsa_seq_init"
  | .alsaPcmOssInit => "alsa_pcm_oss_init"
  | .alsaSeqMidiEventInit => "alsa_seq_midi_event_init"
  | .alsaSeqDummyInit => "alsa_seq_dummy_init"
  | .sndHdaController => "snd_hda_controller"
  | .patchSi3054Init => "patch_si3054_init"
  | .patchCa0132Init => "patch_ca0132_init"
  | .patchHdmiInit => "patch_hdmi_init"
  | .alsaSeqOssInit => "alsa_seq_oss_init"
  | .sndHdaIntel => "snd_hda_intel"
  | .patchSigmatelInit => "patch_sigmatel_init"
  | .patchCirrusInit => "patch_cirrus_init"
  | .patchCa0110Init => "patch_ca0110_init"
  | .patchViaInit => "patch_via_init"
  | .patchRealtekInit => "patch_realtek_init"
  | .patchConexantInit => "patch_conexant_init"
  | .patchCmediaInit => "patch_cmedia_init"
  | .patchAnalogInit => "patch_analog_init"
  | .coretemp => "coretemp"
  | .gpioFan => "gpio_fan"
  | .acpiProcessorDriverInit => "acpi_processor_driver_init"
  | .initMtd => "init_mtd"
  | .ubiInit => "ubi_init"
  | .uioInit => "uio_init"
  | .hilscherPciDriverInit => "hilscher_pci_driver_init"
  | .mxmWmiInit => "mxm_wmi_init"
  | .speedstepInit => "speedstep_init"
  | .mmcBlkInit => "mmc_blk_init"
  | .uvcvideo => "uvcvideo"
  | .gspcaMain => "gspca_main"
  | .irKbdDriver => "ir_kbd_driver"
  | .i2cMuxGpioDriver => "i2c_mux_gpio_driver"
  | .pca9541Driver => "pca9541_driver"
  | .pca954xDriver => "pca954x_driver"
  | .uhciHcdInit => "uhci_hcd_init"
  | .usbmon => "usbmon"
  | .usbStorageDriverInit => "usb_storage_driver_init"
  | .ledDriverInit => "led_driver_init"
  | .uhidInit => "uhid_init"
  | .hidInit => "hid_init"
  | .hidGenericInit => "hid_generic_init"
  | .hidGeneric => "hid_generic"
  | .cherryDriverInit => "cherry_driver_init"
  | .chiconyDriverInit => "chicony_driver_init"
  | .usbHidInit => "usb_hid_init"
  | .appleDriverInit => "apple_driver_init"
  | .a4DriverInit => "a4_driver_init"
  | .ezDriverInit => "ez_driver_init"
  | .cpDriverInit => "cp_driver_init"
  | .ksDriverInit => "ks_driver_init"
  | .msDriverInit => "ms_driver_init"
  | .lgDriverInit => "lg_driver_init"
  | .mrDriverInit => "mr_driver_init"
  | .belkinDriverInit => "belkin_driver_init"
  | .plantronicsDriverInit => "plantronics_driver_init"
  | .keytouchDriverInit => "keytouch_driver_init"
  | .eneUb6250DriverInit => "ene_ub6250_driver_init"
  | .uasDriverInit => "uas_driver_init"
  | .realtekCrDriverInit => "realtek_cr_driver_init"
  | .ehciPciInit => "ehci_pci_init"
  | .libphy => "libphy"
  | .smsc => "smsc"
  | .lib80211Init => "lib80211_init"
  | .lib80211CryptoTkipInit => "lib80211_crypto_tkip_init"
  | .lib80211CryptoWepInit => "lib80211_crypto_wep_init"
  | .lib80211CryptoCcmpInit => "lib80211_crypto_ccmp_init"
  | .libipwInit => "libipw_init"
  | .ledClass => "led_class"
  | .hwrngModinit => "hwrng_modinit"
  | .prngModInit => "prng_mod_init"
  | .ipw2100Init => "ipw2100_init"
  | .ledsPca955x => "leds_pca955x"
  | .b43 => "b43"
  | .b43legacyInit => "b43legacy_init"
  | .intelRngModInit => "intel_rng_mod_init"
  | .afAlgInit => "af_alg_init"
  | .algifHashInit => "algif_hash_init"
  | .algifSkcipherInit => "algif_skcipher_init"
  | .algHash => "alg_hash"
  | .lzoModInit => "lzo_mod_init"
  | .cryptoAuthencModuleInit => "crypto_authenc_module_init"
  | .cryptoAuthencEsnModuleInit => "crypto_authenc_esn_module_init"
  | .cast5ModInit => "cast5_mod_init"
  | .cast6ModInit => "cast6_mod_init"
  | .blowfishModInit => "blowfish_mod_init"
  | .zlibModInit => "zlib_mod_init"
  | .prgnModInit => "prgn_mod_init"
  | .cryptoCbcModuleInit => "crypto_cbc_module_init"
  | .crc32ModInit => "crc32_mod_init"
  | .crc32cModInit => "crc32c_mod_init"
  | .twofishModInit => "twofish_mod_init"
  | .wp512ModInit => "wp512_mod_init"
  | .crct10difModInit => "crct10dif_mod_init"
  | .cryptoNullModInit => "crypto_null_mod_init"
  | .cryptoEcbModuleInit => "crypto_ecb_module_init"
  | .cryptoModuleInit => "crypto_module_init"
  | .cryptoUserInit => "crypto_user_init"
  | .lz4ModInit => "lz4_mod_init"
  | .md4ModInit => "md4_mod_init"
  | .md5ModInit => "md5_mod_init"
  | .rmd128ModInit => "rmd128_mod_init"
  | .rmd160ModInit => "rmd160_mod_init"
  | .rmd256ModInit => "rmd256_mod_init"
  | .rmd320ModInit => "rmd320_mod_init"
  | .sha1GenericModInit => "sha1_generic_mod_init"
  | .sha256GenericModInit => "sha256_generic_mod_init"
  | .sha512GenericModInit => "sha512_generic_mod_init"
  | .eloDriverInit => "elo_driver_init"
  | .ehciHcdInit => "ehci_hcd_init"
  | .ohciPciInit => "ohci_pci_init"
  | .ohciPlatformInit => "ohci_platform_init"
  | .ohciHcdModInit => "ohci_hcd_mod_init"
  | .ehciPlatformInit => "ehci_platform_init"
  | .tcryptModInit => "tcrypt_mod_init"
  | .teaModInit => "tea_mod_init"
  | .tgr192ModInit => "tgr192_mod_init"
  | .pciePortdrvInit => "pcie_portdrv_init"
  | .initIso9660Fs => "init_iso9660_fs"
  | .fuseInit => "fuse_init"
  | .cuseInit => "cuse_init"
  | .journalInit => "journal_init"
  | .initExt3Fs => "init_ext3_fs"
  | .initFatFs => "init_fat_fs"
  | .initVfatFs => "init_vfat_fs"
  | .initMsdosFs => "init_msdos_fs"
  | .initNtfsFs => "init_ntfs_fs"
  | .acpiIpmiInit => "acpi_ipmi_init"
  | .acpiPadInit => "acpi_pad_init"
  | .acpiBatteryInit => "acpi_battery_init"
  | .acpiSbsInit => "acpi_sbs_init"
  | .acpiThermalInit => "acpi_thermal_init"
  | .cpufreqGovDbsInit => "cpufreq_gov_dbs_init"
  | .cpufreqGovPowersaveInit => "cpufreq_gov_powersave_init"
  | .cpufreqStatsInit => "cpufreq_stats_init"
  | .cpufreqGovUserspaceInit => "cpufreq_gov_userspace_init"
  | .hpetInit => "hpet_init"
  | .pciHotplugInit => "pci_hotplug_init"
  | .pciedInit => "pcied_init"
  | .shpcdInit => "shpcd_init"
  | .twofishGeneric => "twofish_generic"
  | .twofishI586 => "twofish_i586"
  | .asymmetricKeyInit => "asymmetric_key_init"
  | .pkcs7KeyInit => "pkcs7_key_init"
  | .x509KeyInit => "x509_key_init"
  | .aesInit => "aes_init"
  | .vmacModuleInit => "vmac_module_init"
  | .mousedevInit => "mousedev_init"
  | .atkbdInit => "atkbd_init"
  | .uinputInit => "uinput_init"
  | .psmouseInit => "psmouse_init"
  | .serportInit => "serport_init"
  | .b43Init => "b43_init"
  | .vb2ThreadInit => "vb2_thread_init"
  | .azxDriverInit => "azx_driver_init"
  | .cryptoAlgapiInit => "crypto_algapi_init"
  | .chainivModuleInit => "chainiv_module_init"
  | .pciePmeServiceInit => "pcie_pme_service_init"
  | .seqivModuleInit => "seqiv_module_init"
  | .eseqivModuleInit => "eseqiv_module_init"
  | .cryptoCmacModuleInit => "crypto_cmac_module_init"
  | .cryptoPcbcModuleInit => "crypto_pcbc_module_init"
  | .cryptoCtrModuleInit => "crypto_ctr_module_init"
  | .cryptoGcmModuleInit => "crypto_gcm_module_init"
  | .hmacModuleInit => "hmac_module_init"
  | .cryptoCtsModuleInit => "crypto_cts_module_init"
  | .cryptoCcmModuleInit => "crypto_ccm_module_init"
  | .desGenericModInit => "des_generic_mod_init"
  | .fcryptModInit => "fcrypt_mod_init"
  | .serpentModInit => "serpent_mod_init"
  | .camelliaInit => "camellia_init"
  | .arc4Init => "arc4_init"
  | .khazadModInit => "khazad_mod_init"
  | .seedInit => "seed_init"
  | .anubisModInit => "anubis_mod_init"
  | .salsa20GenericModInit => "salsa20_generic_mod_init"
  | .krngModInit => "krng_mod_init"
  | .michaelMicInit => "michael_mic_init"
  | .ghashModInit => "ghash_mod_init"
  | .asyncPqInit => "async_pq_init"
  | .deflateModInit => "deflate_mod_init"
  | .brdInit => "brd_init"
  | .loopInit => "loop_init"
  | .tcpCongestionDefault => "tcp_congestion_default"
  | .i2cHidDriverInit => "i2c_hid_driver_init"
  | .smbalertDriverInit => "smbalert_driver_init"
  | .pca9541DriverInit => "pca9541_driver_init"
  | .pca954xDriverInit => "pca954x_driver_init"
  | .pca955xDriverInit => "pca955x_driver_init"
  | .irKbdDriverInit => "ir_kbd_driver_init"
  | .i8042Init => "i8042_init"
  | .serialPciDriverInit => "serial_pci_driver_init"
  | .spiGpioDriverInit => "spi_gpio_driver_init"
  | .initPerZoneWmarkMin => "init_per_zone_wmark_min"
  | .init => "init"
  | .procExecdomainsInit => "proc_execdomains_init"
  | .kswapdInit => "kswapd_init"
  | .procModulesInit => "proc_modules_init"
  | .fcntlInit => "fcntl_init"
  | .acpiFanDriverInit => "acpi_fan_driver_init"
  | .cnProcInit => "cn_proc_init"
  | .nvramInit => "nvram_init"
  | .modInit => "mod_init"
  | .coretempInit => "coretemp_init"
  | .gpioFanDriverInit => "gpio_fan_driver_init"
  | .i2cDevInit => "i2c_dev_init"
  | .i2cI801Init => "i2c_i801_init"
  | .smbusSchDriverInit => "smbus_sch_driver_init"
  | .i2cMuxGpioDriverInit => "i2c_mux_gpio_driver_init"
  | .intelIdleInit => "intel_idle_init"
  | .simtecI2cDriverInit => "simtec_i2c_driver_init"
  | .evdevInit => "evdev_init"
  | .gspcaInit => "gspca_init"
  | .uvcInit => "uvc_init"
  | .ptpPchInit => "ptp_pch_init"
  | .phyModuleInit => "phy_module_init"
  | .cmosInit => "cmos_init"
  | .initSd => "init_sd"
  | .ptyInit => "pty_init"
  | .initSg => "init_sg"
  | .sbfInit => "sbf_init"
  | .setupVmstat => "setup_vmstat"
  | .extfragDebugInit => "extfrag_debug_init"
  | .procFilesystemsInit => "proc_filesystems_init"
  | .dioInit => "dio_init"
  | .initAutofs4Fs => "init_autofs4_fs"
  | .configfsInit => "configfs_init"
  | .initDevptsFs => "init_devpts_fs"
  | .ext4InitFs => "ext4_init_fs"
  | .initExt2Fs => "init_ext2_fs"
  | .initHugetlbfsFs => "init_hugetlbfs_fs"
  | .initNlsCp437 => "init_nls_cp437"
  | .initNlsCp850 => "init_nls_cp850"
  | .initNlsCp852 => "init_nls_cp852"
  | .dnotifyInit => "dnotify_init"
  | .initNlsAscii => "init_nls_ascii"
  | .initNlsIso88591 => "init_nls_iso8859_1"
  | .initNlsUtf8 => "init_nls_utf8"
  | .inotifyUserSetup => "inotify_user_setup"
  | .procLocksInit => "proc_locks_init"
  | .initUdfFs => "init_udf_fs"
  | .initMbcache => "init_mbcache"
  | .procGenhdInit => "proc_genhd_init"
  | .noopInit => "noop_init"
  | .deadlineInit => "deadline_init"
  | .cfqInit => "cfq_init"
  | .initDnsResolver => "init_dns_resolver"
  | .sockDiagInit => "sock_diag_init"
  | .cubictcpRegister => "cubictcp_register"
  | .packetInit => "packet_init"
  | .slabProcInit => "slab_proc_init"
  | .workingsetInit => "workingset_init"
  | .hugetlbInit => "hugetlb_init"
  | .procVmallocInit => "proc_vmalloc_init"
  | .ikconfigInit => "ikconfig_init"
  | .pmcAtomInit => "pmc_atom_init"
  | .crcT10difModInit => "crc_t10dif_mod_init"
  | .libcrc32cModInit => "libcrc32c_mod_init"
  | .percpuCounterStartup => "percpu_counter_startup"
  | .alsaSoundLastInit => "alsa_sound_last_init"
  | .pcips2DriverInit => "pcips2_driver_init"
  | .sermouseDrvInit => "sermouse_drv_init"
  | .serioRawDrvInit => "serio_raw_drv_init"
  | .oprofileInit => "oprofile_init"
  | .addPcspkr => "add_pcspkr"
  | .acpiSmbHcDriverInit => "acpi_smb_hc_driver_init"
  | .nforce2Init => "nforce2_init"
  | .sndCompressInit => "snd_compress_init"
  | .pcspkrPlatformDriverInit => "pcspkr_platform_driver_init"
  | .deinterlacePdrvInit => "deinterlace_pdrv_init"

/-- Every name can stand on a line. -/
theorem getName_line (id : ModulesE) : (getName id).toList ≠ [] ∧ '\n' ∉ (getName id).toList := by
  cases id <;> decide +kernel

end KernelConfiguration
