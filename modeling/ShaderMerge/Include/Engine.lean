/-!
# Includes of the engine

The files that the engine provides are never expanded.  One of them is spelled out all the same,
because its declarations must be in sight: a shader that includes it, or a file of the engine
that includes it in turn, gets `lightingLines`.
-/

namespace ShaderMerge.Include

/-- The files that the engine provides. -/
def engineFiles : List String :=
  ["AutoLight.cginc", "HLSLSupport.cginc", "Lighting.cginc", "TerrainEngine.cginc",
   "Tessellation.cginc", "UnityCG.cginc", "UnityDeferredLibrary.cginc",
   "UnityGlobalIllumination.cginc", "UnityImageBasedLighting.cginc", "UnityInstancing.cginc",
   "UnityMetaPass.cginc", "UnityPBSLighting.cginc", "UnityShaderUtilities.cginc",
   "UnityShaderVariables.cginc", "UnityShadowLibrary.cginc", "UnitySprites.cginc",
   "UnityStandardBRDF.cginc", "UnityStandardConfig.cginc", "UnityStandardCore.cginc",
   "UnityStandardInput.cginc", "UnityStandardUtils.cginc", "UnityUI.cginc"]

/-- The file whose content is spelled out. -/
def lightingFile : String := "UnityLightingCommon.cginc"

/-- The files of the engine that include the one that is spelled out. -/
def lightingDependents : List String :=
  ["Lighting.cginc", "UnityGlobalIllumination.cginc", "UnityPBSLighting.cginc",
   "UnityStandardBRDF.cginc", "UnityStandardCore.cginc"]

/-- The logical lines of the file that is spelled out. -/
def lightingLines : List String :=
  ["#ifndef UNITY_LIGHTING_COMMON_INCLUDED",
   "#define UNITY_LIGHTING_COMMON_INCLUDED",
   "fixed4 _LightColor0;",
   "fixed4 _SpecColor;",
   "struct UnityLight",
   "\x7b",
   "half3 color;",
   "half3 dir;",
   "half ndotl;",
   "\x7d;",
   "struct UnityIndirect",
   "\x7b",
   "half3 diffuse;",
   "half3 specular;",
   "\x7d;",
   "struct UnityGI",
   "\x7b",
   "UnityLight light;",
   "UnityIndirect indirect;",
   "\x7d;",
   "#endif"]

end ShaderMerge.Include
